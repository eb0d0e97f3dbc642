import Bindery.Proofs.Findings

/-!
What has happened when statements were bound.

`Statement.Binds` is binding as a relation, with a rule for each kind of statement;
`Statement.binds` says that binding is an instance of it. Properties of bound trees
are proved by recursion on these runs. Three of them come first. A run keeps what
encloses the current place and only adds symbols and findings (`Binder.Grows`). The
symbols that a bound statement introduces are those its run adds, in order
(`Statement.Binds.introduces`). A name that can be seen behind a statement could be
seen before it, or the statement declares it (`Statement.Binds.visible`), so no name
ever stands for a position outside the symbol table (`Statement.Binds.grounded`).

`Binder.Notes P` is binding that only adds findings with `P` and leaves the rest as it was.
-/

namespace Bindery.Bound

/-! ### Symbols of bound statements -/

/-- The symbols that a statement declares in the scope it stands in. -/
def Statement.declares : Statement → List SymbolId
  | .function f .. => [f]
  | .declare s .. => [s]
  | .ifThen _ yes _ => yes.declares
  | .ifElse _ yes no _ => yes.declares ++ no.declares
  | .whileLoop _ body _ => body.declares
  | .doWhile body .. => body.declares
  | .block .. => []
  | .returns .. => []
  | .breakLoop _ => []
  | .continueLoop _ => []
  | .print .. => []
  | .expression .. => []

mutual

/-- Every symbol that a statement introduces, in the order in which they are made. -/
def Statement.introduces : Statement → List SymbolId
  | .function f parameters body .. => parameters ++ f :: introducesList body
  | .declare s .. => [s]
  | .ifThen _ yes _ => yes.introduces
  | .ifElse _ yes no _ => yes.introduces ++ no.introduces
  | .whileLoop _ body _ => body.introduces
  | .doWhile body .. => body.introduces
  | .block statements _ => introducesList statements
  | .returns .. => []
  | .breakLoop _ => []
  | .continueLoop _ => []
  | .print .. => []
  | .expression .. => []

def introducesList : List Statement → List SymbolId
  | [] => []
  | s :: rest => s.introduces ++ introducesList rest

end

theorem Statement.mem_introduces_of_mem_declares {id : SymbolId} :
    ∀ {s : Statement}, id ∈ s.declares → id ∈ s.introduces
  | .function .., mem => by
    cases List.mem_singleton.mp mem
    exact List.mem_append_right _ List.mem_cons_self
  | .declare .., mem => mem
  | .ifThen _ yes _, mem => mem_introduces_of_mem_declares (s := yes) mem
  | .ifElse .., mem => by
    rcases List.mem_append.mp mem with first | second
    · exact List.mem_append_left _ (mem_introduces_of_mem_declares first)
    · exact List.mem_append_right _ (mem_introduces_of_mem_declares second)
  | .whileLoop _ body _, mem | .doWhile body .., mem =>
    mem_introduces_of_mem_declares (s := body) mem

end Bindery.Bound

namespace Bindery

open Binder

/-! ### Binding as a relation -/

def Binder.declareFunction (b : Binder) (taken : Bool) (name : Identifier)
    (params : List (SymbolId × String × Ty)) (result : Ty) : Binder :=
  let symbol := ⟨name.name, .function (params.map (·.2.2)) result, .function (params.map (·.1))⟩
  (b.alloc symbol).declare taken name b.symbols.size

def Binder.enterFunction (b : Binder) (taken : Bool) (name : Identifier)
    (params : List (SymbolId × String × Ty)) (result : Ty) : Binder :=
  (((b.declareFunction taken name params result).pushJump .function).pushScope
    |>.declareParameters params).pushScope

def Binder.leaveFunction (b : Binder) (result : Ty) (body : List Bound.Statement)
    (bodySpan : Span) : Binder :=
  let status := Bound.checkBody result body
  let b := ((b.popScope.popScope).popJump).note (status.2.map .problem)
  if status.1.isOk then b else b.report bodySpan.lastByte .missingReturn [result.text]

mutual

/-- `s.Binds b s' b'`: binding takes the statement `s` to `s'` and the state `b` to `b'`. -/
inductive Statement.Binds : Statement → Binder → Bound.Statement → Binder → Prop where
  | function {name parameters result body bodySpan span b taken b₁ params b₂ explicit b₃ body' b₄} :
      b.checkRedeclared name = (taken, b₁) → b₁.bindParameters [] parameters = (params, b₂) →
      b₂.bindType? result = (explicit, b₃) →
      BindsList body (b₃.enterFunction taken name params (explicit.getD .unit)) body' b₄ →
      Statement.Binds (.function name parameters result body bodySpan span) b
        (.function b₃.symbols.size (params.map (·.1)) body'
          ((Bound.checkBody (explicit.getD .unit) body').1 = .mustBeInserted) bodySpan span)
        (b₄.leaveFunction (explicit.getD .unit) body' bodySpan)
  | declare {name typeName readOnly value span b taken b₁ explicit b₂ value' b₃} :
      b.checkRedeclared name = (taken, b₁) → b₁.bindType? typeName = (explicit, b₂) →
      b₂.bindExpression value = (value', b₃) →
      Statement.Binds (.declare name typeName readOnly value span) b
        (.declare b₃.symbols.size value' span)
        (((b₃.alloc ⟨name.name, explicit.getD value'.ty, .binding readOnly⟩).declare taken name
          b₃.symbols.size).note (checkAssignable value' (explicit.getD value'.ty)))
  | ifThen {condition yes span b condition' b₁ yes' b₂} :
      b.bindExpression condition = (condition', b₁) → yes.Binds b₁ yes' b₂ →
      Statement.Binds (.ifThen condition yes span) b (.ifThen condition' yes' span)
        (b₂.note (checkCondition condition'))
  | ifElse {condition yes no span b condition' b₁ yes' b₂ no' b₃} :
      b.bindExpression condition = (condition', b₁) → yes.Binds b₁ yes' b₂ →
      no.Binds b₂ no' b₃ →
      Statement.Binds (.ifElse condition yes no span) b (.ifElse condition' yes' no' span)
        (b₃.note (checkCondition condition'))
  | whileLoop {condition body span b condition' b₁ body' b₂} :
      b.bindExpression condition = (condition', b₁) →
      body.Binds (b₁.pushJump .loop) body' b₂ →
      Statement.Binds (.whileLoop condition body span) b (.whileLoop condition' body' span)
        (b₂.popJump.note (checkCondition condition'))
  | doWhile {body condition span b body' b₁ condition' b₂} :
      body.Binds (b.pushJump .loop) body' b₁ →
      b₁.popJump.bindExpression condition = (condition', b₂) →
      Statement.Binds (.doWhile body condition span) b (.doWhile body' condition' span)
        (b₂.note (checkCondition condition'))
  | block {statements span b statements' b₁} :
      BindsList statements b.pushScope statements' b₁ →
      Statement.Binds (.block statements span) b (.block statements' span) b₁.popScope
  | returnsUnit {span b} : Statement.Binds (.returns none span) b (.returns none span) b
  | returns {value span b value' b₁} : b.bindExpression value = (value', b₁) →
      Statement.Binds (.returns (some value) span) b (.returns (some value') span) b₁
  | breakLoop {span b} :
      Statement.Binds (.breakLoop span) b (.breakLoop span) (b.checkJump span "break")
  | continueLoop {span b} :
      Statement.Binds (.continueLoop span) b (.continueLoop span) (b.checkJump span "continue")
  | print {value span b value' b₁} : b.bindExpression value = (value', b₁) →
      Statement.Binds (.print value span) b (.print value' span) b₁
  | expression {value span b value' b₁} : b.bindExpression value = (value', b₁) →
      Statement.Binds (.expression value span) b (.expression value' span) b₁

/-- Statements are bound one after the other. -/
inductive BindsList : List Statement → Binder → List Bound.Statement → Binder → Prop where
  | nil {b} : BindsList [] b [] b
  | cons {s rest b s' b₁ rest' b₂} : s.Binds b s' b₁ → BindsList rest b₁ rest' b₂ →
      BindsList (s :: rest) b (s' :: rest') b₂

end

mutual

/-- Binding a statement is a run. -/
theorem Statement.binds : ∀ (s : Statement) (b : Binder), s.Binds b (s.bind b).1 (s.bind b).2
  | .function .., _ => by
    obtain ⟨_, same, body⟩ := bindsList [] _ _
    rw [Statement.bind]
    simp only
    rw [same]
    exact .function rfl rfl rfl body
  | .declare .., _ => by
    rw [Statement.bind]
    exact .declare rfl rfl rfl
  | .ifThen _ yes _, _ => by
    rw [Statement.bind]
    exact .ifThen rfl (yes.binds _)
  | .ifElse _ yes no _, _ => by
    rw [Statement.bind]
    exact .ifElse rfl (yes.binds _) (no.binds _)
  | .whileLoop _ body _, _ => by
    rw [Statement.bind]
    exact .whileLoop rfl (body.binds _)
  | .doWhile body .., _ => by
    rw [Statement.bind]
    exact .doWhile (body.binds _) rfl
  | .block statements _, b => by
    obtain ⟨_, same, inner⟩ := bindsList [] statements b.pushScope
    rw [Statement.bind]
    simp only
    rw [same]
    exact .block inner
  | .returns none _, _ => by
    rw [Statement.bind]
    exact .returnsUnit
  | .returns (some _) _, _ => by
    rw [Statement.bind]
    exact .returns rfl
  | .breakLoop _, _ => by
    rw [Statement.bind]
    exact .breakLoop
  | .continueLoop _, _ => by
    rw [Statement.bind]
    exact .continueLoop
  | .print .., _ => by
    rw [Statement.bind]
    exact .print rfl
  | .expression .., _ => by
    rw [Statement.bind]
    exact .expression rfl

theorem bindsList : ∀ (done : List Bound.Statement) (statements : List Statement) (b : Binder),
    ∃ bound, (bindList done statements b).1 = done.reverse ++ bound ∧
      BindsList statements b bound (bindList done statements b).2
  | _, [], _ => ⟨[], by simp [bindList], by rw [bindList]; exact .nil⟩
  | done, s :: rest, b => by
    obtain ⟨bound, same, others⟩ := bindsList ((s.bind b).1 :: done) rest (s.bind b).2
    refine ⟨(s.bind b).1 :: bound, ?_, ?_⟩
    · rw [bindList]
      simpa using same
    · rw [bindList]
      exact .cons (s.binds b) others

end

mutual

/-- The relation is the function. -/
theorem Statement.Binds.bind_eq {s : Statement} {b b' s'} :
    s.Binds b s' b' → s.bind b = (s', b')
  | .function redeclared parameters typed body => by
    rw [Statement.bind]
    simp only [redeclared, parameters, typed]
    rw [← Binder.declareFunction, ← Binder.enterFunction, body.bind_eq []]
    rfl
  | .declare redeclared typed value => by
    rw [Statement.bind]
    simp only [redeclared, typed, value]
  | .ifThen condition yes => by
    rw [Statement.bind]
    simp only [condition, yes.bind_eq]
  | .ifElse condition yes no => by
    rw [Statement.bind]
    simp only [condition, yes.bind_eq, no.bind_eq]
  | .whileLoop condition body => by
    rw [Statement.bind]
    simp only [condition, body.bind_eq]
  | .doWhile body condition => by
    rw [Statement.bind]
    simp only [body.bind_eq, condition]
  | .block statements => by
    rw [Statement.bind, statements.bind_eq []]
    rfl
  | .returnsUnit | .breakLoop | .continueLoop => by
    rw [Statement.bind]
  | .returns value | .print value | .expression value => by
    rw [Statement.bind]
    simp only [value]

/-- A run of a list is what binding it does. -/
theorem BindsList.bind_eq : ∀ {statements : List Statement} {b b' : Binder}
    {bound : List Bound.Statement} (done : List Bound.Statement),
    BindsList statements b bound b' → bindList done statements b = (done.reverse ++ bound, b')
  | _, _, _, _, _, .nil => by
    rw [bindList, List.append_nil]
  | _, _, _, _, _, .cons first others => by
    rw [bindList]
    simp only [first.bind_eq, others.bind_eq, List.reverse_cons, List.append_assoc,
      List.singleton_append]

end

/-! ### What a run keeps -/

/-- The names of parameters. A parameter without a name declares nothing. -/
def parameterNames (parameters : List Parameter) : List String :=
  (parameters.map (·.name.name)).filter (· ≠ "")

variable {b b' : Binder} {e : Expression} {e' : Bound.Expression} {low high : Nat}
    {findings : List Finding}

namespace Binder

/-- What encloses the current place is as before; symbols and findings are only added. -/
structure Grows (b b' : Binder) : Prop where
  enclosing : b'.scopes.enclosing = b.scopes.enclosing
  jumps : b'.jumps = b.jumps
  symbols : b.symbols.toList <+: b'.symbols.toList
  found : b.found <:+ b'.found

variable {name : Identifier} {taken : Bool} {ty : Ty} {seen : List String}
    {parameters : List Parameter} {params : List (SymbolId × String × Ty)} {id : SymbolId}

namespace Grows

theorem refl (b : Binder) : Grows b b :=
  ⟨rfl, rfl, List.prefix_rfl, List.suffix_rfl⟩

theorem trans {b b' b'' : Binder} (first : Grows b b') (second : Grows b' b'') : Grows b b'' where
  enclosing := second.enclosing.trans first.enclosing
  jumps := second.jumps.trans first.jumps
  symbols := first.symbols.trans second.symbols
  found := first.found.trans second.found

theorem note {b b' : Binder} (h : Grows b b') (findings : List Finding) :
    Grows b (b'.note findings) :=
  { h with found := h.found.trans ⟨findings.reverse, (List.reverseAux_eq ..).symm⟩ }

theorem report {b b' : Binder} (h : Grows b b') (span : Span) (problem : Problem)
    (arguments : List String) : Grows b (b'.report span problem arguments) :=
  h.note _

theorem alloc {b b' : Binder} (h : Grows b b') (symbol : Symbol) : Grows b (b'.alloc symbol) :=
  { h with symbols := h.symbols.trans ⟨[symbol], (b'.symbols.toList_alloc symbol).symm⟩ }

theorem declare {b b' : Binder} (h : Grows b b') (taken : Bool) (name : Identifier)
    (symbol : SymbolId) : Grows b (b'.declare taken name symbol) := by
  unfold Binder.declare
  split
  · exact h
  · exact { h with enclosing := h.enclosing }

/-- What is inside a scope stays there. -/
theorem popScope {b b' : Binder} (h : Grows b.pushScope b') : Grows b b'.popScope := by
  have outside : b'.scopes.enclosing = b.scopes.current :: b.scopes.enclosing := h.enclosing
  exact { h with enclosing := by simp only [Binder.popScope, ScopeChain.pop, outside] }

/-- Leaving a scope leads back to the names around it. -/
theorem scopes_popScope (h : Grows b.pushScope b') : b'.popScope.scopes = b.scopes := by
  have outside : b'.scopes.enclosing = b.scopes.current :: b.scopes.enclosing := h.enclosing
  simp only [Binder.popScope, ScopeChain.pop, outside]

theorem popJump {b b' : Binder} {context : JumpContext} (h : Grows (b.pushJump context) b') :
    Grows b b'.popJump := by
  have outside : b'.jumps = context :: b.jumps := h.jumps
  exact { h with jumps := by simp only [Binder.popJump, outside, List.tail_cons] }

end Grows

theorem checkRedeclared_eq (run : b.checkRedeclared name = (taken, b')) :
    (taken = false ∧ b' = b) ∨
      (taken = true ∧ b' = b.report name.span .redeclaredName [name.name]) := by
  unfold checkRedeclared at run
  split at run
  · cases run
    exact .inr ⟨rfl, rfl⟩
  · cases run
    exact .inl ⟨rfl, rfl⟩

theorem bindType_eq (run : b.bindType name = (ty, b')) :
    (b' = b ∧ (name.isMissing = true ∧ ty = .error ∨ Ty.ofName? name.name = some ty)) ∨
      b' = b.report name.span .unknownType [name.name] ∧ ty = .error := by
  unfold bindType at run
  split at run
  · cases run
    exact .inl ⟨rfl, .inl ⟨‹_›, rfl⟩⟩
  · split at run
    · cases run
      exact .inl ⟨rfl, .inr ‹_›⟩
    · cases run
      exact .inr ⟨rfl, rfl⟩

theorem bindExpression_eq (run : b.bindExpression e = (e', b')) :
    e' = (e.bind b.environment).1 ∧ b' = b.note (e.bind b.environment).2 := by
  rw [bindExpression_eq_bind] at run
  cases run
  exact ⟨rfl, rfl⟩

theorem checkRedeclared_notes (run : b.checkRedeclared name = (taken, b')) :
    ∃ findings, b' = b.note findings ∧ Finding.All (Finding.Within 2001 2303) findings := by
  rcases checkRedeclared_eq run with ⟨_, rfl⟩ | ⟨_, rfl⟩
  · exact ⟨[], rfl, .nil⟩
  · exact ⟨_, rfl, .on ⟨_, rfl⟩⟩

theorem bindType_notes (run : b.bindType name = (ty, b')) :
    ∃ findings, b' = b.note findings ∧ Finding.All (Finding.Within 2002 2303) findings := by
  rcases bindType_eq run with ⟨rfl, _⟩ | ⟨rfl, _⟩
  · exact ⟨[], rfl, .nil⟩
  · exact ⟨_, rfl, .on ⟨_, rfl⟩⟩

theorem bindType?_notes {name : Option Identifier} {ty : Option Ty}
    (run : b.bindType? name = (ty, b')) :
    ∃ findings, b' = b.note findings ∧ Finding.All (Finding.Within 2002 2303) findings := by
  cases name with
  | none =>
    cases run
    exact ⟨[], rfl, .nil⟩
  | some =>
    obtain ⟨_, same⟩ := Prod.mk.inj run
    exact bindType_notes (Prod.ext rfl same)

theorem checkJump_notes (b : Binder) (span : Span) (keyword : String) :
    ∃ findings, b.checkJump span keyword = b.note findings ∧
      Finding.All (Finding.Within 2002 2303) findings := by
  unfold checkJump
  split
  · exact ⟨_, rfl, .on ⟨_, rfl⟩⟩
  · split
    · exact ⟨_, rfl, .on ⟨_, rfl⟩⟩
    · exact ⟨[], rfl, .nil⟩

/-- Checks of names and types only add findings. -/
theorem checkRedeclared_note (run : b.checkRedeclared name = (taken, b')) :
    ∃ findings, b' = b.note findings :=
  (checkRedeclared_notes run).imp fun _ h => h.1

theorem bindType?_note {name : Option Identifier} {ty : Option Ty}
    (run : b.bindType? name = (ty, b')) : ∃ findings, b' = b.note findings :=
  (bindType?_notes run).imp fun _ h => h.1

theorem checkJump_note (b : Binder) (span : Span) (keyword : String) :
    ∃ findings, b.checkJump span keyword = b.note findings :=
  (checkJump_notes b span keyword).imp fun _ h => h.1

/-- A declaration binds its value where it starts, and up to there it only notes findings. -/
theorem declaration_note {typeName : Option Identifier} {ty : Option Ty} {b₁ b₂ : Binder}
    (redeclared : b.checkRedeclared name = (taken, b₁)) (typed : b₁.bindType? typeName = (ty, b₂))
    (value : b₂.bindExpression e = (e', b')) :
    e' = (e.bind b.environment).1 ∧ ∃ findings, b' = b.note findings := by
  obtain ⟨_, rfl⟩ := checkRedeclared_note redeclared
  obtain ⟨_, rfl⟩ := bindType?_note typed
  obtain ⟨rfl, rfl⟩ := bindExpression_eq value
  rw [note_note, note_note]
  exact ⟨rfl, _, rfl⟩

/-- Parameters get symbols of their own, one after the other. -/
theorem bindParameters_eq (run : b.bindParameters seen parameters = (params, b')) :
    Grows b b' ∧ b'.scopes = b.scopes ∧
      b'.symbols.toList = b.symbols.toList ++ params.map (fun p => ⟨p.2.1, p.2.2, .parameter⟩) ∧
      params.map (·.1) = List.range' b.symbols.size params.length := by
  induction parameters generalizing b seen params with
  | nil =>
    cases run
    exact ⟨.refl _, rfl, by simp, rfl⟩
  | cons p _ ih =>
    rw [bindParameters] at run
    split at run
    · exact ih run
    · cases typed : b.bindType p.typeName with
      | mk =>
        obtain ⟨findings, rfl, _⟩ := bindType_notes typed
        simp only [typed] at run
        obtain ⟨more, noted⟩ : ∃ more, (if seen.contains p.name.name then
            (b.note findings).report p.span .duplicateParameter [p.name.name]
            else b.note findings) = (b.note findings).note more := by
          split
          · exact ⟨_, rfl⟩
          · exact ⟨[], rfl⟩
        rw [noted] at run
        obtain ⟨rfl, rfl⟩ := Prod.mk.inj run
        obtain ⟨grows, scopes, symbols, ids⟩ := ih rfl
        refine ⟨((((Grows.refl b).note _).note _).alloc _).trans grows, scopes, ?_, ?_⟩
        · rw [symbols]
          simp [alloc, note]
        · simp only [List.map_cons, ids, List.length_cons, List.range'_succ]
          simp [alloc, note]

/-- The parameters of a function get the symbols of their names. -/
theorem bindParameters_names (run : b.bindParameters seen parameters = (params, b')) :
    params.map (·.2.1) = parameterNames parameters := by
  induction parameters generalizing b seen params with
  | nil =>
    cases run
    rfl
  | cons _ _ ih =>
    rw [bindParameters] at run
    split at run
    · rename_i missing
      rw [ih run]
      simp only [Identifier.isMissing, String.isEmpty_iff] at missing
      simp [parameterNames, missing]
    · rename_i given
      obtain ⟨rfl, others⟩ := Prod.mk.inj run
      simp only [Identifier.isMissing, String.isEmpty_iff] at given
      rw [List.map_cons, ih (Prod.ext rfl others)]
      simp [parameterNames, given]

theorem ne_empty_of_mem_params (run : b.bindParameters seen parameters = (params, b')) :
    ∀ p ∈ params, p.2.1 ≠ "" := by
  intro p mem
  have name : p.2.1 ∈ parameterNames parameters :=
    bindParameters_names run ▸ List.mem_map_of_mem mem
  simpa using (List.mem_filter.mp name).2

/-- Declaring parameters only changes the innermost scope. -/
theorem declareParameters_grows (b : Binder) (params : List (SymbolId × String × Ty)) :
    Grows b (b.declareParameters params) ∧ (b.declareParameters params).symbols = b.symbols ∧
      (b.declareParameters params).found = b.found := by
  induction params generalizing b with
  | nil => exact ⟨.refl b, rfl, rfl⟩
  | cons p _ ih =>
    obtain ⟨id, name, ty⟩ := p
    rw [declareParameters]
    split
    · exact ih b
    · obtain ⟨grows, symbols, found⟩ := ih { b with scopes := b.scopes.put name id }
      exact ⟨{ grows with enclosing := grows.enclosing }, symbols, found⟩

theorem declareParameters_visible {name : String}
    (seen : (b.declareParameters params).scopes.get? name = some id) :
    b.scopes.get? name = some id ∨ id ∈ params.map (·.1) := by
  induction params generalizing b with
  | nil => exact .inl seen
  | cons p _ ih =>
    obtain ⟨other, otherName, ty⟩ := p
    rw [declareParameters] at seen
    split at seen
    · exact (ih seen).imp_right (List.mem_cons_of_mem _)
    · rcases ih seen with before | later
      · rw [ScopeChain.get?_put] at before
        split at before
        · cases before
          exact .inr List.mem_cons_self
        · exact .inl before
      · exact .inr (List.mem_cons_of_mem _ later)

theorem declare_visible {symbol : SymbolId} {other : String}
    (seen : (b.declare taken name symbol).scopes.get? other = some id) :
    b.scopes.get? other = some id ∨ id = symbol := by
  unfold declare at seen
  split at seen
  · exact .inl seen
  · rw [ScopeChain.get?_put] at seen
    split at seen
    · cases seen
      exact .inr rfl
    · exact .inl seen

theorem declare_symbols (b : Binder) (taken : Bool) (name : Identifier) (symbol : SymbolId) :
    (b.declare taken name symbol).symbols = b.symbols := by
  unfold declare
  split <;> rfl

theorem declare_found (b : Binder) (taken : Bool) (name : Identifier) (symbol : SymbolId) :
    (b.declare taken name symbol).found = b.found := by
  unfold declare
  split <;> rfl

section Function

variable {result : Ty} {body : List Bound.Statement} {bodySpan : Span}

theorem declareFunction_grows : Grows b (b.declareFunction taken name params result) :=
  ((Grows.refl b).alloc _).declare ..

/-- Behind a function, its name is declared and nothing else is. -/
theorem leaveFunction_grows (inner : Grows (b.enterFunction taken name params result) b') :
    Grows (b.declareFunction taken name params result) (b'.leaveFunction result body bodySpan) ∧
      (b'.leaveFunction result body bodySpan).scopes =
        (b.declareFunction taken name params result).scopes := by
  have parameters := (declareParameters_grows
    ((b.declareFunction taken name params result).pushJump .function).pushScope params).1
  have outside := parameters.trans inner.popScope
  have restored := outside.scopes_popScope
  have ending := outside.popScope.popJump.note
    ((Bound.checkBody result body).2.map Finding.problem)
  unfold leaveFunction
  simp only
  split
  · exact ⟨ending, restored⟩
  · exact ⟨ending.report _ _ _, restored⟩

end Function

end Binder

mutual

/-- A run of a statement only adds. -/
theorem Statement.Binds.grows {s : Statement} {b b' s'} :
    s.Binds b s' b' → Grows b b'
  | .function redeclared parameters typed body => by
    obtain ⟨_, rfl⟩ := checkRedeclared_note redeclared
    obtain ⟨made, _⟩ := bindParameters_eq parameters
    obtain ⟨_, rfl⟩ := bindType?_note typed
    exact (((Grows.refl _).note _).trans made).note _ |>.trans declareFunction_grows
      |>.trans (leaveFunction_grows body.grows).1
  | .declare redeclared typed value => by
    obtain ⟨rfl, _, rfl⟩ := declaration_note redeclared typed value
    exact ((((Grows.refl _).note _).alloc _).declare ..).note _
  | .ifThen condition yes => by
    obtain ⟨rfl, rfl⟩ := bindExpression_eq condition
    exact (((Grows.refl _).note _).trans yes.grows).note _
  | .ifElse condition yes no => by
    obtain ⟨rfl, rfl⟩ := bindExpression_eq condition
    exact ((((Grows.refl _).note _).trans yes.grows).trans no.grows).note _
  | .whileLoop condition body => by
    obtain ⟨rfl, rfl⟩ := bindExpression_eq condition
    exact (((Grows.refl _).note _).trans body.grows.popJump).note _
  | .doWhile body condition => by
    obtain ⟨rfl, rfl⟩ := bindExpression_eq condition
    exact (body.grows.popJump.note _).note _
  | .block statements => statements.grows.popScope
  | .returnsUnit => .refl _
  | .returns value | .print value | .expression value => by
    obtain ⟨rfl, rfl⟩ := bindExpression_eq value
    exact (Grows.refl _).note _
  | .breakLoop | .continueLoop => by
    obtain ⟨_, same⟩ := checkJump_note _ _ _
    rw [same]
    exact (Grows.refl _).note _

theorem BindsList.grows {statements b b' bound} :
    BindsList statements b bound b' → Grows b b'
  | .nil => .refl _
  | .cons first others => first.grows.trans others.grows

end

/-! ### Which symbols a run makes -/

/-- From a table of the first size to one of the second, the symbols `ids` are made. -/
structure Makes (before : Nat) (ids : List SymbolId) (after : Nat) : Prop where
  ids_eq : ids = List.range' before ids.length
  size_eq : after = before + ids.length

namespace Makes

theorem none (n : Nat) : Makes n [] n := ⟨rfl, rfl⟩

theorem one (n : Nat) : Makes n [n] (n + 1) := ⟨rfl, rfl⟩

variable {n m : Nat} {ids : List SymbolId}

theorem append {k : Nat} {first second : List SymbolId} (left : Makes n first m)
    (right : Makes m second k) : Makes n (first ++ second) k where
  ids_eq := by
    rw [List.length_append, ← List.range'_append_1, ← left.ids_eq, ← left.size_eq,
      ← right.ids_eq]
  size_eq := by rw [right.size_eq, left.size_eq, List.length_append, Nat.add_assoc]

theorem mem_bounds (h : Makes n ids m) {id : SymbolId} (mem : id ∈ ids) : n ≤ id ∧ id < m := by
  rw [h.ids_eq, List.mem_range'_1] at mem
  rw [h.size_eq]
  exact mem

theorem nodup (h : Makes n ids m) : ids.Nodup := by
  rw [h.ids_eq]
  exact List.nodup_range'

end Makes

theorem SymbolTable.length_toList (t : SymbolTable) : t.toList.length = t.size :=
  Array.length_toList

/-- The symbols of parameters are new, in order. -/
theorem Binder.makes_bindParameters {seen : List String} {parameters : List Parameter}
    {params : List (SymbolId × String × Ty)} (run : b.bindParameters seen parameters = (params, b'))
    :
    Makes b.symbols.size (params.map (·.1)) b'.symbols.size := by
  obtain ⟨_, _, symbols, ids⟩ := bindParameters_eq run
  refine ⟨by rw [List.length_map]; exact ids, ?_⟩
  rw [← SymbolTable.length_toList, symbols]
  simp [SymbolTable.length_toList]

theorem Binder.size_symbols_declareFunction (b : Binder) (taken : Bool) (name : Identifier)
    (params : List (SymbolId × String × Ty)) (result : Ty) :
    (b.declareFunction taken name params result).symbols.size = b.symbols.size + 1 := by
  rw [declareFunction, declare_symbols]
  exact SymbolTable.size_alloc ..

theorem Binder.symbols_enterFunction (b : Binder) (taken : Bool) (name : Identifier)
    (params : List (SymbolId × String × Ty)) (result : Ty) :
    (b.enterFunction taken name params result).symbols =
      (b.declareFunction taken name params result).symbols :=
  (declareParameters_grows
    ((b.declareFunction taken name params result).pushJump .function).pushScope params).2.1

theorem Binder.symbols_leaveFunction (b : Binder) (result : Ty) (body : List Bound.Statement)
    (bodySpan : Span) : (b.leaveFunction result body bodySpan).symbols = b.symbols := by
  unfold leaveFunction
  simp only
  split <;> rfl

mutual

/-- A bound statement introduces the symbols that its run makes. -/
theorem Statement.Binds.introduces {s : Statement} {b b' s'} :
    s.Binds b s' b' → Makes b.symbols.size s'.introduces b'.symbols.size
  | .function redeclared parameters typed body => by
    obtain ⟨_, rfl⟩ := checkRedeclared_note redeclared
    have made := makes_bindParameters parameters
    obtain ⟨_, rfl⟩ := bindType?_note typed
    have inner := body.introduces
    rw [symbols_enterFunction, size_symbols_declareFunction] at inner
    rw [symbols_leaveFunction]
    exact made.append ((Makes.one _).append inner)
  | .declare redeclared typed value => by
    obtain ⟨rfl, _, rfl⟩ := declaration_note redeclared typed value
    change Makes _ _ (Binder.declare _ _ _ _).symbols.size
    rw [declare_symbols]
    change Makes _ _ (SymbolTable.alloc _ _).size
    rw [SymbolTable.size_alloc]
    exact .one _
  | .ifThen condition yes => by
    obtain ⟨rfl, rfl⟩ := bindExpression_eq condition
    exact yes.introduces
  | .ifElse condition yes no => by
    obtain ⟨rfl, rfl⟩ := bindExpression_eq condition
    exact yes.introduces.append no.introduces
  | .whileLoop condition body | .doWhile body condition => by
    obtain ⟨rfl, rfl⟩ := bindExpression_eq condition
    exact body.introduces
  | .block statements => statements.introduces
  | .returnsUnit => .none _
  | .returns value | .print value | .expression value => by
    obtain ⟨rfl, rfl⟩ := bindExpression_eq value
    exact .none _
  | .breakLoop | .continueLoop => by
    obtain ⟨_, same⟩ := checkJump_note _ _ _
    rw [same]
    exact .none _

theorem BindsList.introduces {statements b b' bound} :
    BindsList statements b bound b' →
      Makes b.symbols.size (Bound.introducesList bound) b'.symbols.size
  | .nil => .none _
  | .cons first others => first.introduces.append others.introduces

end

/-! ### Which names can be seen -/

/-- A name that can be seen behind a statement could be seen before it or is declared by
it. -/
theorem Statement.Binds.visible {name : String} {id : SymbolId} {s : Statement} {b b' : Binder}
    {s' : Bound.Statement} :
    s.Binds b s' b' →
      b'.scopes.get? name = some id → b.scopes.get? name = some id ∨ id ∈ s'.declares
  | .function redeclared parameters typed body, seen => by
    obtain ⟨_, rfl⟩ := checkRedeclared_note redeclared
    obtain ⟨_, scopes, _⟩ := bindParameters_eq parameters
    obtain ⟨_, rfl⟩ := bindType?_note typed
    rw [(leaveFunction_grows body.grows).2] at seen
    rcases declare_visible seen with before | rfl
    · exact .inl (scopes ▸ before)
    · exact .inr List.mem_cons_self
  | .declare redeclared typed value, seen => by
    obtain ⟨rfl, _, rfl⟩ := declaration_note redeclared typed value
    rcases declare_visible seen with before | rfl
    · exact .inl before
    · exact .inr List.mem_cons_self
  | .ifThen condition yes, seen => by
    obtain ⟨rfl, rfl⟩ := bindExpression_eq condition
    exact yes.visible seen
  | .ifElse condition yes no, seen => by
    obtain ⟨rfl, rfl⟩ := bindExpression_eq condition
    rcases no.visible seen with before | declared
    · exact (yes.visible before).imp_right (List.mem_append_left _)
    · exact .inr (List.mem_append_right _ declared)
  | .whileLoop condition body, seen | .doWhile body condition, seen => by
    obtain ⟨rfl, rfl⟩ := bindExpression_eq condition
    exact body.visible seen
  | .block statements, seen => by
    rw [statements.grows.scopes_popScope] at seen
    exact .inl seen
  | .returnsUnit, seen => .inl seen
  | .returns value, seen | .print value, seen | .expression value, seen => by
    obtain ⟨rfl, rfl⟩ := bindExpression_eq value
    exact .inl seen
  | .breakLoop, seen | .continueLoop, seen => by
    obtain ⟨_, same⟩ := checkJump_note _ _ _
    rw [same] at seen
    exact .inl seen

/-- Findings none of which is a name without a symbol. -/
def OnlyProblems (findings : List Finding) : Prop := ∀ id, .dangling id ∉ findings

namespace OnlyProblems

theorem nil : OnlyProblems [] := fun _ => List.not_mem_nil

theorem on {span : Span} {problem : Problem} {arguments : List String} :
    OnlyProblems [.on span problem arguments] := fun _ mem => nomatch List.mem_singleton.mp mem

theorem append {first second : List Finding} (left : OnlyProblems first)
    (right : OnlyProblems second) : OnlyProblems (first ++ second) := fun id mem =>
  (List.mem_append.mp mem).elim (left id) (right id)

theorem problems (diagnostics : List Diagnostic) : OnlyProblems (diagnostics.map .problem) := by
  intro id mem
  obtain ⟨_, _, same⟩ := List.mem_map.mp mem
  cases same

theorem of_within (h : Finding.All (Finding.Within low high) findings) : OnlyProblems findings :=
  fun _ mem => h _ mem

end OnlyProblems

def Environment.Grounded (env : Environment) : Prop :=
  ∀ name id, env.scopes.get? name = some id → id < env.symbols.size

/-- Where names stand for symbols, an expression is only complained about. -/
theorem Expression.bind_onlyProblems {env : Environment} (grounded : env.Grounded)
    (e : Expression) : OnlyProblems (e.bind env).2 := by
  intro id mem
  obtain ⟨outside, name, seen⟩ := e.bind_finds env _ mem
  exact Nat.not_lt.mpr outside (grounded name id seen)

/-- Every name stands for a symbol of the table, and none that was looked up did not. -/
structure Binder.Grounded (b : Binder) : Prop where
  names : b.environment.Grounded
  found : OnlyProblems b.found

namespace Binder.Grounded

theorem new : Grounded Binder.new where
  names := fun _ _ seen => by cases seen
  found := .nil

theorem note {b : Binder} (h : Grounded b) {findings : List Finding}
    (problems : OnlyProblems findings) : Grounded (b.note findings) where
  names := h.names
  found := by
    rw [Binder.note, List.reverseAux_eq]
    exact .append (fun id mem => problems id (List.mem_reverse.mp mem)) h.found

theorem report {b : Binder} (h : Grounded b) (span : Span) (problem : Problem)
    (arguments : List String) : Grounded (b.report span problem arguments) :=
  h.note .on

theorem pushScope {b : Binder} (h : Grounded b) : Grounded b.pushScope where
  names name id seen := h.names name id ((b.scopes.get?_push name).symm.trans seen)
  found := h.found

theorem pushJump {b : Binder} (h : Grounded b) (context : JumpContext) :
    Grounded (b.pushJump context) :=
  ⟨h.names, h.found⟩

theorem popJump {b : Binder} (h : Grounded b) : Grounded b.popJump := ⟨h.names, h.found⟩

variable {name : Identifier}

theorem notes (h : Grounded b) (within : Finding.All (Finding.Within low high) findings) :
    Grounded (b.note findings) :=
  h.note (.of_within within)

theorem checkRedeclared {taken : Bool} (h : Grounded b)
    (run : b.checkRedeclared name = (taken, b')) : Grounded b' := by
  obtain ⟨_, rfl, within⟩ := checkRedeclared_notes run
  exact h.notes within

theorem bindType {ty : Ty} (h : Grounded b) (run : b.bindType name = (ty, b')) : Grounded b' := by
  obtain ⟨_, rfl, within⟩ := bindType_notes run
  exact h.notes within

theorem bindType? {name : Option Identifier} {ty : Option Ty} (h : Grounded b)
    (run : b.bindType? name = (ty, b')) : Grounded b' := by
  obtain ⟨_, rfl, within⟩ := bindType?_notes run
  exact h.notes within

theorem bindExpression (h : Grounded b) (run : b.bindExpression e = (e', b')) : Grounded b' := by
  obtain ⟨_, rfl⟩ := bindExpression_eq run
  exact h.note (e.bind_onlyProblems h.names)

theorem alloc {b : Binder} (h : Grounded b) (symbol : Symbol) : Grounded (b.alloc symbol) where
  names name id seen := by
    have := h.names name id seen
    change id < (b.symbols.alloc symbol).size
    rw [SymbolTable.size_alloc]
    exact Nat.lt_succ_of_lt this
  found := h.found

theorem bindParameters {b b' : Binder} {seen : List String} {parameters : List Parameter}
    {params : List (SymbolId × String × Ty)} (h : Grounded b)
    (run : b.bindParameters seen parameters = (params, b')) : Grounded b' := by
  induction parameters generalizing b seen params with
  | nil =>
    cases run
    exact h
  | cons _ _ ih =>
    rw [Binder.bindParameters] at run
    split at run
    · exact ih h run
    · cases run
      refine ih (alloc ?_ _) rfl
      split
      · exact (h.bindType rfl).report ..
      · exact h.bindType rfl

/-- Declaring a symbol that exists. -/
theorem declare {b : Binder} (h : Grounded b) (taken : Bool) (name : Identifier) {symbol : SymbolId}
    (exists_ : symbol < b.symbols.size) : Grounded (b.declare taken name symbol) where
  names other id seen := by
    change id < (b.declare taken name symbol).symbols.size
    rw [declare_symbols]
    rcases declare_visible seen with before | rfl
    · exact h.names other id before
    · exact exists_
  found := by
    rw [declare_found]
    exact h.found

theorem declareParameters {b : Binder} (h : Grounded b) {params : List (SymbolId × String × Ty)}
    (exist : ∀ id ∈ params.map (·.1), id < b.symbols.size) :
    Grounded (b.declareParameters params) := by
  obtain ⟨_, symbols, found⟩ := declareParameters_grows b params
  refine ⟨fun name id seen => ?_, found ▸ h.found⟩
  change id < (b.declareParameters params).symbols.size
  rw [symbols]
  exact (declareParameters_visible seen).elim (h.names name id) (exist id)

theorem enterFunction {b : Binder} (h : Grounded b) (taken : Bool) (name : Identifier)
    {params : List (SymbolId × String × Ty)} (result : Ty)
    (exist : ∀ id ∈ params.map (·.1), id < b.symbols.size) :
    Grounded (b.enterFunction taken name params result) := by
  have symbol : b.symbols.size < (b.alloc ⟨name.name, .function (params.map (·.2.2)) result,
      .function (params.map (·.1))⟩).symbols.size := by
    rw [Binder.alloc, SymbolTable.size_alloc]
    exact Nat.lt_succ_self _
  refine pushScope (declareParameters ((((h.alloc _).declare taken name symbol).pushJump
    .function).pushScope) fun id mem => ?_)
  change id < (Binder.declare _ _ _ _).symbols.size
  rw [declare_symbols]
  exact Nat.lt_trans (exist id mem) symbol

theorem onlyProblems_leaveFunction (h : Grounded b) (result : Ty) (body : List Bound.Statement)
    (bodySpan : Span) : OnlyProblems (b.leaveFunction result body bodySpan).found := by
  have problems : OnlyProblems ((Bound.checkBody result body).2.map Finding.problem) := .problems _
  unfold leaveFunction
  simp only
  split
  · exact (h.note problems).found
  · exact ((h.note problems).report ..).found

theorem checkJump {b : Binder} (h : Grounded b) (span : Span) (keyword : String) :
    Grounded (b.checkJump span keyword) := by
  obtain ⟨_, same, within⟩ := checkJump_notes b span keyword
  rw [same]
  exact h.notes within

end Binder.Grounded

/-- Names stay grounded, since a name seen behind a statement is an old one or one of the
symbols that the statement made. -/
theorem Statement.Binds.names {s : Statement} {s' : Bound.Statement} (run : s.Binds b s' b')
    (grounded : b.environment.Grounded) : b'.environment.Grounded := by
  intro name id seen
  have made := run.introduces
  rcases run.visible seen with before | declared
  · have inside : id < b.symbols.size := grounded name id before
    have grown : b.symbols.size ≤ b'.symbols.size := made.size_eq ▸ Nat.le_add_right ..
    exact Nat.lt_of_lt_of_le inside grown
  · exact (made.mem_bounds (Bound.Statement.mem_introduces_of_mem_declares declared)).2

mutual

/-- A statement leaves all names standing for symbols. -/
theorem Statement.Binds.grounded {s : Statement} {b b' s'} :
    s.Binds b s' b' → b.Grounded → b'.Grounded
  | run@(.function redeclared parameters typed body), h => by
    have ground := ((h.checkRedeclared redeclared).bindParameters parameters).bindType? typed
    have made := makes_bindParameters parameters
    obtain ⟨_, rfl⟩ := bindType?_note typed
    have inner := body.grounded (ground.enterFunction _ _ _ fun id mem => (made.mem_bounds mem).2)
    exact ⟨run.names h.names, inner.onlyProblems_leaveFunction _ _ _⟩
  | .declare redeclared typed value, h => by
    have ground := ((h.checkRedeclared redeclared).bindType? typed).bindExpression value
    refine ((ground.alloc _).declare _ _ ?_).notes (.checkAssignable _ _)
    rw [Binder.alloc, SymbolTable.size_alloc]
    exact Nat.lt_succ_self _
  | .ifThen condition yes, h =>
    (yes.grounded (h.bindExpression condition)).notes (.checkCondition _)
  | .ifElse condition yes no, h =>
    (no.grounded (yes.grounded (h.bindExpression condition))).notes (.checkCondition _)
  | .whileLoop condition body, h =>
    (body.grounded ((h.bindExpression condition).pushJump _)).popJump.notes (.checkCondition _)
  | .doWhile body condition, h =>
    ((body.grounded (h.pushJump _)).popJump.bindExpression condition).notes (.checkCondition _)
  | run@(.block statements), h => ⟨run.names h.names, (statements.grounded h.pushScope).found⟩
  | .returnsUnit, h => h
  | .returns value, h | .print value, h | .expression value, h => h.bindExpression value
  | .breakLoop, h | .continueLoop, h => h.checkJump _ _

theorem BindsList.grounded {statements b b' bound} :
    BindsList statements b bound b' → b.Grounded → b'.Grounded
  | .nil, h => h
  | .cons first others, h => others.grounded (first.grounded h)

end

/-! ### Runs without findings -/

namespace Binder

theorem found_note (b : Binder) (findings : List Finding) :
    (b.note findings).found = findings.reverse ++ b.found :=
  List.reverseAux_eq ..

variable {name : Identifier} {taken : Bool} {ty : Ty}

theorem found_note_eq_nil : (b.note findings).found = [] ↔ findings = [] ∧ b.found = [] := by
  rw [found_note, List.append_eq_nil_iff, List.reverse_eq_nil_iff]

theorem found_report_ne_nil {span : Span} {problem : Problem} {arguments : List String} :
    (b.report span problem arguments).found ≠ [] :=
  List.cons_ne_nil _ _

def Notes (P : Finding → Prop) (b b' : Binder) : Prop :=
  ∃ findings, b'.found = findings.reverse ++ b.found ∧ Finding.All P findings

namespace Notes

variable {P : Finding → Prop} {b'' : Binder}

theorem refl (b : Binder) : b.Notes P b := ⟨[], rfl, .nil⟩

theorem trans (first : b.Notes P b') (second : b'.Notes P b'') : b.Notes P b'' := by
  obtain ⟨findings, found, all⟩ := first
  obtain ⟨others, later, more⟩ := second
  refine ⟨findings ++ others, ?_, all.append more⟩
  rw [later, found, List.reverse_append, List.append_assoc]

/-- Names and jumps do not matter for what is noted. -/
theorem of_found (h : b.Notes P b') (same : b''.found = b'.found) : b.Notes P b'' := by
  obtain ⟨findings, found, all⟩ := h
  exact ⟨findings, same.trans found, all⟩

theorem note {findings : List Finding} (h : b.Notes P b') (all : Finding.All P findings) :
    b.Notes P (b'.note findings) :=
  h.trans ⟨findings, found_note b' findings, all⟩

theorem checkRedeclared (run : b.checkRedeclared name = (taken, b')) :
    b.Notes (Finding.Within 2001 2303) b' := by
  obtain ⟨_, rfl, within⟩ := checkRedeclared_notes run
  exact (refl b).note within

theorem bindType (run : b.bindType name = (ty, b')) : b.Notes (Finding.Within 2002 2303) b' := by
  obtain ⟨_, rfl, within⟩ := bindType_notes run
  exact (refl b).note within

theorem bindType? {name : Option Identifier} {ty : Option Ty}
    (run : b.bindType? name = (ty, b')) : b.Notes (Finding.Within 2002 2303) b' := by
  obtain ⟨_, rfl, within⟩ := bindType?_notes run
  exact (refl b).note within

theorem checkJump (span : Span) (keyword : String) :
    b.Notes (Finding.Within 2002 2303) (b.checkJump span keyword) := by
  obtain ⟨_, same, within⟩ := checkJump_notes b span keyword
  rw [same]
  exact (refl b).note within

theorem bindParameters {seen : List String} {parameters : List Parameter}
    {params : List (SymbolId × String × Ty)}
    (run : b.bindParameters seen parameters = (params, b')) :
    b.Notes (Finding.Within 2002 2303) b' := by
  induction parameters generalizing b seen params with
  | nil =>
    cases run
    exact refl _
  | cons p _ ih =>
    rw [Binder.bindParameters] at run
    split at run
    · exact ih run
    · obtain ⟨_, others⟩ := Prod.mk.inj run
      have typed : b.Notes (Finding.Within 2002 2303) (b.bindType p.typeName).2 := bindType rfl
      refine (typed.trans ?_).trans (ih (Prod.ext rfl others))
      refine of_found ?_ rfl
      split
      · exact (refl _).note (.on ⟨_, rfl⟩)
      · exact refl _

/-- Leaving a function, its returns are checked, and so is the end of its body. -/
theorem leaveFunction (b : Binder) (result : Ty) (body : List Bound.Statement) (bodySpan : Span) :
    b.Notes (Finding.Within 2302 2307) (b.leaveFunction result body bodySpan) := by
  have checked : b.Notes (Finding.Within 2302 2307) (((b.popScope.popScope).popJump).note
      ((Bound.checkBody result body).2.map .problem)) :=
    ((refl b).of_found rfl).note (.problems (Bound.within_checkBody result body))
  unfold Binder.leaveFunction
  simp only
  split
  · exact checked
  · exact checked.note (.on ⟨result, rfl⟩)

end Notes

/-- If nothing was found in the end, nothing was found before. -/
theorem Grows.clean {b b' : Binder} (h : Grows b b') (clean : b'.found = []) : b.found = [] :=
  List.suffix_nil.mp (clean ▸ h.found)

theorem checkRedeclared_clean (run : b.checkRedeclared name = (taken, b')) (clean : b'.found = []) :
    taken = false ∧ b' = b := by
  rcases checkRedeclared_eq run with same | ⟨_, rfl⟩
  · exact same
  · exact absurd clean found_report_ne_nil

theorem bindType_clean (run : b.bindType name = (ty, b')) (named : name.isMissing = false)
    (clean : b'.found = []) : b' = b ∧ Ty.ofName? name.name = some ty := by
  rcases bindType_eq run with ⟨rfl, ⟨missing, _⟩ | known⟩ | ⟨rfl, _⟩
  · rw [named] at missing
    cases missing
  · exact ⟨rfl, known⟩
  · exact absurd clean found_report_ne_nil

/-- A function in which nothing was found has its returns in order. -/
theorem leaveFunction_clean {result : Ty} {body : List Bound.Statement} {bodySpan : Span}
    (clean : (b.leaveFunction result body bodySpan).found = []) :
    b.found = [] ∧ (Bound.checkBody result body).2 = [] ∧
      (Bound.checkBody result body).1.isOk = true := by
  unfold leaveFunction at clean
  simp only at clean
  split at clean
  · rename_i ok
    obtain ⟨returns, found⟩ := found_note_eq_nil.mp clean
    exact ⟨found, List.map_eq_nil_iff.mp returns, ok⟩
  · exact absurd clean found_report_ne_nil

end Binder

/-! ### Files without diagnostics -/

/-- Where every finding is a problem, no diagnostics means no findings. -/
theorem Binder.found_eq_nil (problems : OnlyProblems b.found) (clean : b.diagnostics = []) :
    b.found = [] := by
  cases last : b.found with
  | nil => rfl
  | cons f =>
    cases f with
    | dangling id =>
      rw [last] at problems
      exact absurd List.mem_cons_self (problems id)
    | problem =>
      rw [diagnostics, last] at clean
      simp at clean

/-- A file is bound by binding its statements and checking their returns. -/
theorem SourceFile.binds (file : SourceFile) :
    ∃ bound b, BindsList file.statements .new bound b ∧ file.bind.1 = ⟨bound, b.symbols⟩ ∧
      file.bind.2 = (b.note ((Bound.checkBody .unit bound).2.map .problem)).diagnostics := by
  obtain ⟨bound, same, run⟩ := bindsList [] file.statements .new
  have statements : (bindList [] file.statements .new).1 = bound := same
  refine ⟨bound, _, run, ?_, ?_⟩
  · rw [← statements]
    rfl
  · rw [← statements]
    rfl

/-- A file without diagnostics is bound in a run that finds nothing, and its returns are
in order. -/
theorem SourceFile.binds_of_clean {file : SourceFile} (clean : file.bind.2 = []) :
    ∃ b, BindsList file.statements .new file.bind.1.statements b ∧
      file.bind.1.symbols = b.symbols ∧ b.found = [] ∧
      (Bound.checkBody .unit file.bind.1.statements).2 = [] := by
  obtain ⟨bound, b, run, program, diagnostics⟩ := file.binds
  rw [diagnostics] at clean
  have grounded := run.grounded .new
  have nothing := found_eq_nil (grounded.note (.problems _)).found clean
  obtain ⟨returns, found⟩ := found_note_eq_nil.mp nothing
  rw [program]
  exact ⟨b, run, rfl, found, List.map_eq_nil_iff.mp returns⟩

end Bindery
