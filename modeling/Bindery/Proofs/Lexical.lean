import Mathlib.Data.List.Forall2
import Bindery.Proofs.Typing

/-!
Names are resolved lexically.

The declarations of the open scopes, in their order, are enough to say what a name stands for:
the first declaration of it in the innermost scope that has one (`Scopes.resolve?`). The scopes
of a place are read off the source alone. A statement adds the names of `Statement.names` to the
scope it stands in; only blocks, function bodies and parameter lists open scopes.
`Statement.Resolves` says that every reference of a bound statement is resolved by this rule. The
scopes of a binder hold the declarations that the rule looks at (`Binder.Shows`), so that binding
leads to such statements (`Statement.Binds.resolves`).
-/

namespace Bindery

open Binder

/-! ### Scopes as lists of declarations -/

/-- What the open scopes declare, each in its order, the innermost scope first. -/
abbrev Scopes (α : Type) := List (List α)

variable {declared : List String} {ids : List SymbolId}

namespace Scopes

variable {α : Type}

def add : Scopes α → List α → Scopes α
  | [], _ => []
  | inner :: outer, declared => (inner ++ declared) :: outer

/-- The first declaration of a name in the innermost scope that has one. -/
def resolve? (scopes : Scopes (String × SymbolId)) (name : String) : Option SymbolId :=
  scopes.findSome? (·.lookup name)

def names (scopes : Scopes (String × SymbolId)) : Scopes String :=
  scopes.map (·.map Prod.fst)

def Sees (scopes : Scopes String) (name : String) : Prop :=
  ∃ scope ∈ scopes, name ∈ scope

instance (scopes : Scopes String) (name : String) : Decidable (scopes.Sees name) :=
  inferInstanceAs (Decidable (∃ scope ∈ scopes, name ∈ scope))

def Taken (scopes : Scopes String) (name : String) : Prop :=
  name ∈ scopes.headD []

instance (scopes : Scopes String) (name : String) : Decidable (scopes.Taken name) :=
  inferInstanceAs (Decidable (name ∈ scopes.headD []))

@[simp] theorem add_nil (scopes : Scopes α) : scopes.add [] = scopes := by
  cases scopes <;> simp [add]

theorem add_append (scopes : Scopes α) (first second : List α) :
    scopes.add (first ++ second) = (scopes.add first).add second := by
  cases scopes <;> simp [add]

/-- The names of declarations are added with them. -/
theorem names_add (scopes : Scopes (String × SymbolId)) (same : ids.length = declared.length) :
    (scopes.add (declared.zip ids)).names = scopes.names.add declared := by
  have fst : (declared.zip ids).map Prod.fst = declared := List.map_fst_zip (Nat.le_of_eq same.symm)
  cases scopes <;> simp [names, add, fst]

/-- A name is not found if it is not declared. -/
theorem lookup_eq_none_iff {declared : List (String × SymbolId)} {name : String} :
    declared.lookup name = none ↔ name ∉ declared.map Prod.fst := by
  simp only [List.lookup_eq_none_iff, List.mem_map, bne_iff_ne, not_exists, not_and]
  exact forall₂_congr fun _ _ => ne_comm

/-- A name that no scope declares stands for nothing. -/
theorem resolve?_eq_none_iff {scopes : Scopes (String × SymbolId)} {name : String} :
    scopes.resolve? name = none ↔ ¬ scopes.names.Sees name := by
  simp only [resolve?, List.findSome?_eq_none_iff, lookup_eq_none_iff, Sees, names, List.mem_map]
  constructor
  · rintro unseen ⟨_, ⟨scope, inside, rfl⟩, mem⟩
    exact unseen scope inside (by simpa using mem)
  · intro unseen scope inside mem
    exact unseen ⟨_, ⟨scope, inside, rfl⟩, by simpa using mem⟩

end Scopes

def SymbolTable.Names (table : SymbolTable) (name : String) (id : SymbolId) : Prop :=
  ∃ symbol, table.get? id = some symbol ∧ symbol.name = name

namespace SymbolTable

variable {name : String} {id : SymbolId}

/-- Symbols keep their names. -/
theorem Names.mono {first second : SymbolTable} (named : first.Names name id)
    (within : first.Within second) : second.Names name id := by
  obtain ⟨symbol, known, same⟩ := named
  exact ⟨symbol, within _ _ known, same⟩

theorem Names.lt_size {table : SymbolTable} (named : table.Names name id) : id < table.size := by
  obtain ⟨_, known, _⟩ := named
  exact (Array.getElem?_eq_some_iff.mp known).1

/-- A symbol that was just made. -/
theorem names_alloc (table : SymbolTable) (symbol : Symbol) :
    (table.alloc symbol).Names symbol.name table.size :=
  ⟨symbol, by rw [get?_alloc, if_pos rfl], rfl⟩

end SymbolTable

/-! ### What the source declares -/

/-- The names that a statement declares in the scope it stands in. A branch or the body of a loop
opens no scope. -/
def Statement.names : Statement → List String
  | .function name .. => [name.name]
  | .declare name .. => [name.name]
  | .ifThen _ yes _ => yes.names
  | .ifElse _ yes no _ => yes.names ++ no.names
  | .whileLoop _ body _ => body.names
  | .doWhile body .. => body.names
  | .block .. => []
  | .returns .. => []
  | .breakLoop _ => []
  | .continueLoop _ => []
  | .print .. => []
  | .expression .. => []

/-- The scopes of a function body: its own, that of the parameters, and those around the function,
where the function is declared already. -/
def Scopes.enter {α : Type} (scopes : Scopes α) (function : α) (parameters : List α) : Scopes α :=
  [] :: parameters :: scopes.add [function]

theorem Scopes.names_enter (scopes : Scopes (String × SymbolId)) (function : String × SymbolId)
    (same : ids.length = declared.length) :
    (scopes.enter function (declared.zip ids)).names = scopes.names.enter function.1 declared := by
  have fst : (declared.zip ids).map Prod.fst = declared := List.map_fst_zip (Nat.le_of_eq same.symm)
  cases scopes <;> simp [names, enter, add, fst]

/-! ### Resolved trees -/

section Resolves

variable (table : SymbolTable)

mutual

/-- The references of an expression are bound to the declarations that they resolve to. An
expression is in error, and bound to nothing, only where its parts leave it no meaning: the target
can not be stored to or called, or no operation is found for the operands. -/
inductive Expression.Resolves (scopes : Scopes (String × SymbolId)) :
    Expression → Bound.Expression → Prop where
  | literal {value span} :
      Expression.Resolves scopes (.literal value span) (.literal value span)
  | reference {name id symbol} : name.name ≠ "" → scopes.resolve? name.name = some id →
      table.get? id = some symbol → symbol.name = name.name →
      Expression.Resolves scopes (.reference name) (.reference id symbol.ty name.span)
  | unknown {name} : name.name ≠ "" → scopes.resolve? name.name = none →
      Expression.Resolves scopes (.reference name) (.error name.span)
  | missing {name} : name.name = "" →
      Expression.Resolves scopes (.reference name) (.error name.span)
  | assignment {target value span id ty targetSpan symbol value'} :
      target.Resolves scopes (.reference id ty targetSpan) →
      assignable? table (.reference id ty targetSpan) = some (id, symbol) →
      value.Resolves scopes value' →
      Expression.Resolves scopes (.assignment target value span)
        (.assignment id value' symbol.ty span)
  | invalidAssignment {target value span target' value'} :
      target.Resolves scopes target' → assignable? table target' = none →
      value.Resolves scopes value' →
      Expression.Resolves scopes (.assignment target value span) (.error span)
  | binary {left operator operatorSpan right span left' right' operation ty} :
      left.Resolves scopes left' → right.Resolves scopes right' →
      ¬ (left'.isError ∨ right'.isError) →
      BinaryOperation.resolve? left'.ty operator right'.ty = some (operation, ty) →
      Expression.Resolves scopes (.binary left operator operatorSpan right span)
        (.binary operation left' right' ty span)
  | invalidBinary {left operator operatorSpan right span left' right'} :
      left.Resolves scopes left' → right.Resolves scopes right' →
      (left'.isError ∨ right'.isError ∨
        BinaryOperation.resolve? left'.ty operator right'.ty = none) →
      Expression.Resolves scopes (.binary left operator operatorSpan right span) (.error span)
  | unary {operator operatorSpan operand span operand' operation ty} :
      operand.Resolves scopes operand' → ¬ operand'.isError →
      UnaryOperation.resolve? operator operand'.ty = some (operation, ty) →
      Expression.Resolves scopes (.unary operator operatorSpan operand span)
        (.unary operation operand' ty span)
  | invalidUnary {operator operatorSpan operand span operand'} :
      operand.Resolves scopes operand' →
      (operand'.isError ∨ UnaryOperation.resolve? operator operand'.ty = none) →
      Expression.Resolves scopes (.unary operator operatorSpan operand span) (.error span)
  | parenthesized {inner span inner'} : inner.Resolves scopes inner' →
      Expression.Resolves scopes (.parenthesized inner span) (.parenthesized inner' span)
  | call {target arguments argumentsSpan span target' arguments' parameters ty} :
      target.Resolves scopes target' → target'.ty.signature? = some (parameters, ty) →
      ArgumentsResolve scopes arguments arguments' →
      Expression.Resolves scopes (.call target arguments argumentsSpan span)
        (.call target' arguments' ty span)
  | invalidCall {target arguments argumentsSpan span target' arguments'} :
      target.Resolves scopes target' → target'.ty.signature? = none →
      ArgumentsResolve scopes arguments arguments' →
      Expression.Resolves scopes (.call target arguments argumentsSpan span) (.error span)
  | ternary {condition yes no span condition' yes' no'} :
      condition.Resolves scopes condition' → yes.Resolves scopes yes' →
      no.Resolves scopes no' →
      Expression.Resolves scopes (.ternary condition yes no span)
        (.ternary condition' yes' no' (if yes'.ty = no'.ty then yes'.ty else .any) span)

inductive ArgumentsResolve (scopes : Scopes (String × SymbolId)) :
    List Expression → List Bound.Expression → Prop where
  | nil : ArgumentsResolve scopes [] []
  | cons {e e' rest rest'} : e.Resolves scopes e' →
      ArgumentsResolve scopes rest rest' → ArgumentsResolve scopes (e :: rest) (e' :: rest')

end

mutual

/-- The references of a statement are bound to the declarations that they resolve to, and each
declaration to a symbol with its name. -/
inductive Statement.Resolves :
    Scopes (String × SymbolId) → Statement → Bound.Statement → Prop where
  | function {scopes name parameters result body bodySpan span f ids body' inserted} :
      table.Names name.name f → List.Forall₂ table.Names (parameterNames parameters) ids →
      ResolvesList (scopes.enter (name.name, f) ((parameterNames parameters).zip ids)) body body' →
      Statement.Resolves scopes (.function name parameters result body bodySpan span)
        (.function f ids body' inserted bodySpan span)
  | declare {scopes name typeName readOnly value span id value'} : table.Names name.name id →
      value.Resolves table scopes value' →
      Statement.Resolves scopes (.declare name typeName readOnly value span)
        (.declare id value' span)
  | ifThen {scopes condition yes span condition' yes'} :
      condition.Resolves table scopes condition' → yes.Resolves scopes yes' →
      Statement.Resolves scopes (.ifThen condition yes span) (.ifThen condition' yes' span)
  | ifElse {scopes condition yes no span condition' yes' no'} :
      condition.Resolves table scopes condition' → yes.Resolves scopes yes' →
      no.Resolves (scopes.add (yes.names.zip yes'.declares)) no' →
      Statement.Resolves scopes (.ifElse condition yes no span)
        (.ifElse condition' yes' no' span)
  | whileLoop {scopes condition body span condition' body'} :
      condition.Resolves table scopes condition' → body.Resolves scopes body' →
      Statement.Resolves scopes (.whileLoop condition body span)
        (.whileLoop condition' body' span)
  | doWhile {scopes body condition span body' condition'} : body.Resolves scopes body' →
      condition.Resolves table (scopes.add (body.names.zip body'.declares)) condition' →
      Statement.Resolves scopes (.doWhile body condition span) (.doWhile body' condition' span)
  | block {scopes statements span statements'} :
      ResolvesList ([] :: scopes) statements statements' →
      Statement.Resolves scopes (.block statements span) (.block statements' span)
  | returnsUnit {scopes span} : Statement.Resolves scopes (.returns none span) (.returns none span)
  | returns {scopes value span value'} : value.Resolves table scopes value' →
      Statement.Resolves scopes (.returns (some value) span) (.returns (some value') span)
  | breakLoop {scopes span} : Statement.Resolves scopes (.breakLoop span) (.breakLoop span)
  | continueLoop {scopes span} :
      Statement.Resolves scopes (.continueLoop span) (.continueLoop span)
  | print {scopes value span value'} : value.Resolves table scopes value' →
      Statement.Resolves scopes (.print value span) (.print value' span)
  | expression {scopes value span value'} : value.Resolves table scopes value' →
      Statement.Resolves scopes (.expression value span) (.expression value' span)

/-- Each statement is resolved behind the declarations of those before it. -/
inductive ResolvesList :
    Scopes (String × SymbolId) → List Statement → List Bound.Statement → Prop where
  | nil {scopes} : ResolvesList scopes [] []
  | cons {scopes s s' rest rest'} : s.Resolves scopes s' →
      ResolvesList (scopes.add (s.names.zip s'.declares)) rest rest' →
      ResolvesList scopes (s :: rest) (s' :: rest')

end

end Resolves

namespace Bound

mutual

def Expression.mentions : Expression → List SymbolId
  | .literal .. => []
  | .reference id .. => [id]
  | .assignment id value .. => id :: value.mentions
  | .binary _ left right .. => left.mentions ++ right.mentions
  | .unary _ operand .. => operand.mentions
  | .parenthesized inner _ => inner.mentions
  | .call target arguments .. => target.mentions ++ mentionsOfArguments arguments
  | .ternary condition yes no .. => condition.mentions ++ yes.mentions ++ no.mentions
  | .error _ => []

def mentionsOfArguments : List Expression → List SymbolId
  | [] => []
  | x :: rest => x.mentions ++ mentionsOfArguments rest

end

mutual

/-- Every symbol that stands in a statement, where it is declared or referred to. -/
def Statement.mentions : Statement → List SymbolId
  | .function f parameters body .. => f :: parameters ++ mentionsOfList body
  | .declare s value _ => s :: value.mentions
  | .ifThen condition yes _ => condition.mentions ++ yes.mentions
  | .ifElse condition yes no _ => condition.mentions ++ yes.mentions ++ no.mentions
  | .whileLoop condition body _ => condition.mentions ++ body.mentions
  | .doWhile body condition _ => body.mentions ++ condition.mentions
  | .block statements _ => mentionsOfList statements
  | .returns none _ => []
  | .returns (some value) _ => value.mentions
  | .breakLoop _ => []
  | .continueLoop _ => []
  | .print value _ => value.mentions
  | .expression value _ => value.mentions

def mentionsOfList : List Statement → List SymbolId
  | [] => []
  | s :: rest => s.mentions ++ mentionsOfList rest

end

end Bound

section Range

variable {table : SymbolTable} {scopes : Scopes (String × SymbolId)}

mutual

/-- What an expression is resolved to stands in the table. -/
theorem Expression.Resolves.mentions_lt {e : Expression} {e' : Bound.Expression} :
    e.Resolves table scopes e' → ∀ id ∈ e'.mentions, id < table.size
  | .literal | .unknown _ _ | .missing _ | .invalidAssignment _ _ _ | .invalidBinary _ _ _
  | .invalidUnary _ _ | .invalidCall _ _ _ => by
    simp [Bound.Expression.mentions]
  | .reference _ _ known named => by
    simp only [Bound.Expression.mentions, List.forall_mem_singleton]
    exact SymbolTable.Names.lt_size ⟨_, known, named⟩
  | .assignment target _ value => by
    have stored := target.mentions_lt
    simp only [Bound.Expression.mentions, List.forall_mem_singleton] at stored
    simp only [Bound.Expression.mentions, List.forall_mem_cons]
    exact ⟨stored, value.mentions_lt⟩
  | .binary left right .. => by
    simp only [Bound.Expression.mentions, List.forall_mem_append]
    exact ⟨left.mentions_lt, right.mentions_lt⟩
  | .unary operand .. => operand.mentions_lt
  | .parenthesized inner => inner.mentions_lt
  | .call target _ arguments => by
    simp only [Bound.Expression.mentions, List.forall_mem_append]
    exact ⟨target.mentions_lt, arguments.mentions_lt⟩
  | .ternary condition yes no => by
    simp only [Bound.Expression.mentions, List.forall_mem_append]
    exact ⟨⟨condition.mentions_lt, yes.mentions_lt⟩, no.mentions_lt⟩

theorem ArgumentsResolve.mentions_lt {arguments arguments'} :
    ArgumentsResolve table scopes arguments arguments' →
    ∀ id ∈ Bound.mentionsOfArguments arguments', id < table.size
  | .nil => by simp [Bound.mentionsOfArguments]
  | .cons first others => by
    simp only [Bound.mentionsOfArguments, List.forall_mem_append]
    exact ⟨first.mentions_lt, others.mentions_lt⟩

end

theorem lt_size_of_forall₂ {names : List String} (named : List.Forall₂ table.Names names ids) :
    ∀ id ∈ ids, id < table.size := by
  induction named with
  | nil => simp
  | cons first _ ih =>
    simp only [List.forall_mem_cons]
    exact ⟨first.lt_size, ih⟩

mutual

/-- What a statement is resolved to stands in the table. -/
theorem Statement.Resolves.mentions_lt {s : Statement} {scopes s'} :
    s.Resolves table scopes s' → ∀ id ∈ s'.mentions, id < table.size
  | .function named parameters body => by
    simp only [Bound.Statement.mentions, List.cons_append, List.forall_mem_cons,
      List.forall_mem_append]
    exact ⟨named.lt_size, lt_size_of_forall₂ parameters, body.mentions_lt⟩
  | .declare named value => by
    simp only [Bound.Statement.mentions, List.forall_mem_cons]
    exact ⟨named.lt_size, value.mentions_lt⟩
  | .ifThen condition inner | .whileLoop condition inner => by
    simp only [Bound.Statement.mentions, List.forall_mem_append]
    exact ⟨condition.mentions_lt, inner.mentions_lt⟩
  | .ifElse condition yes no => by
    simp only [Bound.Statement.mentions, List.forall_mem_append]
    exact ⟨⟨condition.mentions_lt, yes.mentions_lt⟩, no.mentions_lt⟩
  | .doWhile body condition => by
    simp only [Bound.Statement.mentions, List.forall_mem_append]
    exact ⟨body.mentions_lt, condition.mentions_lt⟩
  | .block statements => statements.mentions_lt
  | .returnsUnit | .breakLoop | .continueLoop => by
    simp [Bound.Statement.mentions]
  | .returns value | .print value | .expression value => value.mentions_lt

theorem ResolvesList.mentions_lt {scopes statements statements'} :
    ResolvesList table scopes statements statements' →
      ∀ id ∈ Bound.mentionsOfList statements', id < table.size
  | .nil => by simp [Bound.mentionsOfList]
  | .cons first others => by
    simp only [Bound.mentionsOfList, List.forall_mem_append]
    exact ⟨first.mentions_lt, others.mentions_lt⟩

end

end Range

/-! ### Scopes of the binder -/

/-- The names that a scope holds are those of a list, each with its first declaration. A missing
name is never declared. -/
def Scope.Lists (scope : Scope) (declared : List (String × SymbolId)) : Prop :=
  ∀ name, scope[name]? = if name = "" then none else declared.lookup name

namespace Scope.Lists

variable {scope : Scope} {declared : List (String × SymbolId)}

theorem empty : Lists ∅ [] := by
  intro name
  simp

variable {name : String}

/-- A name that is missing or declared already changes nothing. -/
theorem skip (h : scope.Lists declared) (id : SymbolId)
    (passed : scope.contains name = true ∨ name = "") : scope.Lists (declared ++ [(name, id)]) := by
  intro other
  rw [h other]
  by_cases missing : other = ""
  · simp [missing]
  · rw [if_neg missing, if_neg missing, List.lookup_append]
    by_cases same : other = name
    · subst same
      have present : (declared.lookup other).isSome := by
        have held := passed.resolve_right missing
        rwa [Std.TreeMap.contains_eq_isSome_getElem?, h other, if_neg missing] at held
      rw [Option.or_of_isSome present]
    · simp [List.lookup_cons, beq_false_of_ne same]

/-- A new name is listed last. -/
theorem insert (h : scope.Lists declared) {name : String} (id : SymbolId) (named : name ≠ "")
    (new : scope.contains name = false) :
    Lists (scope.insert name id) (declared ++ [(name, id)]) := by
  intro other
  rw [Std.TreeMap.getElem?_insert, h other, List.lookup_append]
  by_cases same : other = name
  · subst same
    have absent : declared.lookup other = none := by
      rwa [Std.TreeMap.contains_eq_isSome_getElem?, h other, if_neg named,
        Option.isSome_eq_false_iff, Option.isNone_iff_eq_none] at new
    simp [absent, named]
  · have differs : compare name other ≠ .eq := fun equal =>
      same (Std.LawfulEqCmp.eq_of_compare equal).symm
    simp [differs, List.lookup_cons, beq_false_of_ne same]

/-- A scope declares the names that are listed, except missing ones. -/
theorem contains_iff (h : scope.Lists declared) :
    scope.contains name = true ↔ name ≠ "" ∧ name ∈ declared.map Prod.fst := by
  rw [Std.TreeMap.contains_eq_isSome_getElem?, h name]
  by_cases missing : name = ""
  · simp [missing]
  · rw [if_neg missing, ← Option.not_isNone, Bool.not_eq_true', Option.isNone_eq_false_iff,
      Option.isSome_iff_ne_none, ne_eq, Scopes.lookup_eq_none_iff, not_not]
    simp [missing]

end Scope.Lists

/-- The scopes hold what is listed, and each listed name is that of its symbol. -/
structure Environment.Shows (env : Environment) (scopes : Scopes (String × SymbolId)) : Prop where
  lists : List.Forall₂ Scope.Lists env.scopes.toList scopes
  named : ∀ scope ∈ scopes, ∀ declared ∈ scope, env.symbols.Names declared.1 declared.2

namespace Environment.Shows

variable {env : Environment} {scopes : Scopes (String × SymbolId)}

variable {name : String} {id : SymbolId}

/-- A name stands for what the lists say. -/
theorem get?_eq (h : env.Shows scopes) (given : name ≠ "") :
    env.scopes.get? name = scopes.resolve? name := by
  have same : ∀ {maps : List Scope} {lists : Scopes (String × SymbolId)},
      List.Forall₂ Scope.Lists maps lists →
      maps.findSome? (·[name]?) = lists.findSome? (·.lookup name) := by
    intro maps lists listed
    induction listed with
    | nil => rfl
    | cons first _ ih => rw [List.findSome?_cons, List.findSome?_cons, first name, if_neg given, ih]
  exact same h.lists

theorem mem_of_lookup {declared : List (String × SymbolId)}
    (found : declared.lookup name = some id) : (name, id) ∈ declared := by
  obtain ⟨before, after, rfl, _⟩ := List.lookup_eq_some_iff.mp found
  simp

/-- What a name stands for is a symbol of that name. -/
theorem names_of_resolve? (h : env.Shows scopes) (found : scopes.resolve? name = some id) :
    env.symbols.Names name id := by
  obtain ⟨scope, inside, entry⟩ := List.exists_of_findSome?_eq_some found
  exact h.named scope inside (name, id) (mem_of_lookup entry)

/-- New symbols hide nothing. -/
theorem mono {table : SymbolTable} (h : env.Shows scopes) (within : env.symbols.Within table) :
    Shows ⟨env.scopes, table⟩ scopes :=
  ⟨h.lists, fun scope inside declared mem => (h.named scope inside declared mem).mono within⟩

end Environment.Shows

namespace Binder

abbrev Shows (b : Binder) (scopes : Scopes (String × SymbolId)) : Prop :=
  b.environment.Shows scopes

variable {b b' : Binder} {parameters : List Parameter} {taken : Bool}

namespace Shows

variable {scopes : Scopes (String × SymbolId)}

/-- At first nothing is declared. -/
theorem new : Shows Binder.new [[]] where
  lists := .cons .empty .nil
  named := by simp

/-- A new scope declares nothing. -/
theorem pushScope (h : b.Shows scopes) : b.pushScope.Shows ([] :: scopes) where
  lists := .cons .empty h.lists
  named := by
    simp only [List.forall_mem_cons, List.not_mem_nil, false_implies, implies_true, true_and]
    exact h.named

variable {name : String}

/-- The binder knows which names its innermost scope declares. -/
theorem declares_iff (h : b.Shows scopes) :
    b.scopes.declares name = true ↔ name ≠ "" ∧ scopes.names.Taken name := by
  cases listed : h.lists with
  | cons first => exact first.contains_iff

theorem named_add (h : b.Shows scopes) {id : SymbolId} (named : b.symbols.Names name id) :
    ∀ scope ∈ scopes.add [(name, id)], ∀ declared ∈ scope,
      b.symbols.Names declared.1 declared.2 := by
  cases scopes with
  | nil => simp [Scopes.add]
  | cons =>
    have known := h.named
    simp only [Scopes.add, List.forall_mem_cons, List.forall_mem_append] at known ⊢
    exact ⟨⟨known.1, named, by simp⟩, known.2⟩

/-- A name that is missing or declared already in its scope changes nothing. -/
theorem skip (h : b.Shows scopes) {name : String} {id : SymbolId} (named : b.symbols.Names name id)
    (passed : b.scopes.declares name = true ∨ name = "") : b.Shows (scopes.add [(name, id)]) := by
  refine ⟨?_, h.named_add named⟩
  cases listed : h.lists with
  | cons first others => exact .cons (first.skip id passed) others

/-- A new name goes into the innermost scope. -/
theorem put (h : b.Shows scopes) {name : String} {id : SymbolId} (named : b.symbols.Names name id)
    (given : name ≠ "") (new : b.scopes.declares name = false) :
    Shows { b with scopes := b.scopes.put name id } (scopes.add [(name, id)]) := by
  refine ⟨?_, h.named_add named⟩
  cases listed : h.lists with
  | cons first others => exact .cons (first.insert id given new) others

theorem alloc (h : b.Shows scopes) (symbol : Symbol) : (b.alloc symbol).Shows scopes :=
  h.mono ((Grows.refl b).alloc symbol).within

/-- A declaration is shown unless its name is missing or taken. -/
theorem declare (h : b.Shows scopes) {name : Identifier} {id : SymbolId}
    (named : b.symbols.Names name.name id) :
    (b.declare (b.scopes.declares name.name) name id).Shows (scopes.add [(name.name, id)]) := by
  unfold Binder.declare
  split
  · rename_i passed
    refine h.skip named ?_
    simpa [Identifier.isMissing] using passed
  · rename_i free
    simp only [Bool.or_eq_true, not_or, Bool.not_eq_true, Identifier.isMissing] at free
    exact h.put named (by simpa using free.2) free.1

/-- A declaration makes a symbol with its name, behind what is declared in its scope. -/
theorem declareNew (h : b.Shows scopes) {name : Identifier} {symbol : Symbol}
    (named : symbol.name = name.name) (same : taken = b.scopes.declares name.name) :
    ((b.alloc symbol).declare taken name b.symbols.size).Shows
      (scopes.add [(name.name, b.symbols.size)]) := by
  subst same
  exact (h.alloc symbol).declare (named ▸ b.symbols.names_alloc symbol)

/-- Parameters are declared in order; the first of a name keeps it. -/
theorem declareParameters {params : List (SymbolId × String × Ty)} (h : b.Shows scopes)
    (named : ∀ p ∈ params, b.symbols.Names p.2.1 p.1) (given : ∀ p ∈ params, p.2.1 ≠ "") :
    (b.declareParameters params).Shows (scopes.add (params.map fun p => (p.2.1, p.1))) := by
  induction params generalizing b scopes with
  | nil => simpa [Binder.declareParameters] using h
  | cons p _ ih =>
    obtain ⟨id, name, ty⟩ := p
    rw [List.forall_mem_cons] at named given
    rw [Binder.declareParameters, List.map_cons, ← List.singleton_append, Scopes.add_append]
    split
    · rename_i held
      exact ih (h.skip named.1 (.inl held)) named.2 given.2
    · rename_i free
      exact ih (h.put named.1 given.1 (Bool.not_eq_true _ ▸ free)) named.2 given.2

end Shows

theorem zip_parameterNames {seen : List String} {params : List (SymbolId × String × Ty)}
    (run : b.bindParameters seen parameters = (params, b')) :
    (parameterNames parameters).zip (params.map (·.1)) = params.map fun p => (p.2.1, p.1) := by
  rw [← bindParameters_names run, List.zip_map']

/-- A name is taken if its scope declares it. -/
theorem checkRedeclared_taken {name : Identifier} (run : b.checkRedeclared name = (taken, b')) :
    taken = b.scopes.declares name.name := by
  unfold checkRedeclared at run
  split at run
  · cases run
    exact Eq.symm ‹_›
  · cases run
    exact (Bool.eq_false_iff.mpr ‹_›).symm

namespace Shows

variable {scopes : Scopes (String × SymbolId)} {name : Identifier}
    {params : List (SymbolId × String × Ty)} {result : Ty}

/-- What is done before a function is entered changes no scope. -/
theorem prepare (h : b.Shows scopes) {b₁ b₂ b₃ : Binder} {typeName : Option Identifier}
    {explicit : Option Ty} (redeclared : b.checkRedeclared name = (taken, b₁))
    (run : b₁.bindParameters [] parameters = (params, b₂))
    (typed : b₂.bindType? typeName = (explicit, b₃)) :
    b₃.Shows scopes ∧ taken = b₃.scopes.declares name.name ∧
      ∀ p ∈ params, b₃.symbols.Names p.2.1 p.1 := by
  have same := checkRedeclared_taken redeclared
  obtain ⟨_, rfl⟩ := checkRedeclared_note redeclared
  obtain ⟨grows, unchanged, _⟩ := bindParameters_eq run
  have known := get?_bindParameters run
  obtain ⟨_, rfl⟩ := bindType?_note typed
  have later : Environment.Shows ⟨b.scopes, b₂.symbols⟩ scopes := h.mono grows.within
  refine ⟨?_, ?_, fun p mem => ⟨_, known p mem, rfl⟩⟩
  · change Environment.Shows ⟨b₂.scopes, b₂.symbols⟩ scopes
    rw [unchanged]
    exact later
  · change taken = b₂.scopes.declares name.name
    rw [unchanged]
    exact same

/-- A function is declared in the scope it stands in. -/
theorem declareFunction (h : b.Shows scopes) (same : taken = b.scopes.declares name.name) :
    (b.declareFunction taken name params result).Shows
      (scopes.add [(name.name, b.symbols.size)]) :=
  h.declareNew rfl same

/-- Its body sees the function and the parameters. -/
theorem enterFunction (h : b.Shows scopes) (same : taken = b.scopes.declares name.name)
    (named : ∀ p ∈ params, b.symbols.Names p.2.1 p.1) (given : ∀ p ∈ params, p.2.1 ≠ "") :
    (b.enterFunction taken name params result).Shows
      (scopes.enter (name.name, b.symbols.size) (params.map fun p => (p.2.1, p.1))) := by
  have outside : ((b.declareFunction taken name params result).pushJump .function).Shows
      (scopes.add [(name.name, b.symbols.size)]) := h.declareFunction same
  have grown : b.symbols.Within (b.declareFunction taken name params result).symbols :=
    declareFunction_grows.within
  exact (outside.pushScope.declareParameters
    (fun p mem => (named p mem).mono grown) given).pushScope

/-- Leaving a function leads back to the scope that declares it. -/
theorem leaveFunction (h : b.Shows scopes) (same : taken = b.scopes.declares name.name)
    {body : List Bound.Statement} {bodySpan : Span}
    (inner : Grows (b.enterFunction taken name params result) b') :
    (b'.leaveFunction result body bodySpan).Shows
      (scopes.add [(name.name, b.symbols.size)]) := by
  obtain ⟨grows, unchanged⟩ : Grows (b.declareFunction taken name params result)
    (b'.leaveFunction result body bodySpan) ∧ _ := leaveFunction_grows inner
  change Environment.Shows ⟨_, _⟩ _
  rw [unchanged]
  exact (h.declareFunction same).mono grows.within

end Shows

end Binder

/-! ### Statements follow the rule -/

theorem Statement.Binds.length_declares {s : Statement} {b b' : Binder} {s' : Bound.Statement} :
    s.Binds b s' b' → s'.declares.length = s.names.length
  | .function _ _ _ _ | .declare _ _ _ | .block _ | .returnsUnit | .returns _ | .breakLoop
  | .continueLoop | .print _ | .expression _ => rfl
  | .ifThen _ inner | .whileLoop _ inner | .doWhile inner _ => inner.length_declares
  | .ifElse _ yes no => by
    simp only [Bound.Statement.declares, Statement.names, List.length_append, yes.length_declares,
      no.length_declares]

/-- Behind a statement, the names that it declares are those of the source. -/
theorem Statement.Binds.shows {s : Statement} {b b' : Binder} {s' : Bound.Statement} :
    s.Binds b s' b' → ∀ ⦃scopes⦄, b.Shows scopes → b'.Shows (scopes.add (s.names.zip s'.declares))
  | .function redeclared parameters typed body, _, before => by
    obtain ⟨prepared, same, _⟩ := before.prepare redeclared parameters typed
    exact prepared.leaveFunction same body.grows
  | .declare redeclared typed value, _, before => by
    have same := checkRedeclared_taken redeclared
    obtain ⟨rfl, _, rfl⟩ := declaration_note redeclared typed value
    refine Shows.declareNew ?_ rfl same
    exact before
  | .ifThen condition yes, _, before => by
    obtain ⟨rfl, rfl⟩ := bindExpression_eq condition
    exact yes.shows before
  | .ifElse condition yes no, _, before => by
    obtain ⟨rfl, rfl⟩ := bindExpression_eq condition
    rw [Statement.names, Bound.Statement.declares,
      List.zip_append yes.length_declares.symm, Scopes.add_append]
    exact no.shows (yes.shows before)
  | .whileLoop condition body, _, before | .doWhile body condition, _, before => by
    obtain ⟨rfl, rfl⟩ := bindExpression_eq condition
    exact body.shows before
  | .block statements, _, before => by
    have grows := statements.grows
    have later := before.mono grows.popScope.within
    rw [Statement.names, List.zip_nil_left, Scopes.add_nil]
    change Environment.Shows ⟨_, _⟩ _
    rw [grows.scopes_popScope]
    exact later
  | .returnsUnit, _, before => by
    rw [Statement.names, List.zip_nil_left, Scopes.add_nil]
    exact before
  | .returns value, _, before | .print value, _, before | .expression value, _, before => by
    obtain ⟨rfl, rfl⟩ := bindExpression_eq value
    rw [Statement.names, List.zip_nil_left, Scopes.add_nil]
    exact before
  | .breakLoop, _, before | .continueLoop, _, before => by
    obtain ⟨_, same⟩ := checkJump_note _ _ _
    rw [same, Statement.names, List.zip_nil_left, Scopes.add_nil]
    exact before

section Resolved

variable {table : SymbolTable}

/-- A resolved target can be stored to by the symbols of a later time as by those it was bound
against, which hold every symbol that the open scopes lead to. -/
theorem Expression.Resolves.assignable?_eq {env : Environment}
    {scopes : Scopes (String × SymbolId)} {target : Expression} {target' : Bound.Expression}
    (resolved : target.Resolves table scopes target') (shown : env.Shows scopes)
    (within : env.symbols.Within table) :
    assignable? table target' = assignable? env.symbols target' := by
  cases resolved with
  | reference _ found =>
    obtain ⟨symbol, known, _⟩ := shown.names_of_resolve? found
    simp only [assignable?, known, within _ _ known]
  | _ => rfl

variable {env : Environment} {scopes : Scopes (String × SymbolId)}

mutual

/-- Binding resolves the references of an expression by the rule. -/
theorem Expression.resolves (shown : env.Shows scopes) (within : env.symbols.Within table) :
    ∀ e : Expression, e.Resolves table scopes (e.bind env).1
  | .literal .. => by
    rw [Expression.bind]
    exact .literal
  | .reference name => by
    rw [Expression.bind, bindReference]
    by_cases missing : name.name = ""
    · rw [if_pos (by simp [Identifier.isMissing, missing])]
      exact .missing missing
    · rw [if_neg (by simp [Identifier.isMissing, missing]), shown.get?_eq missing]
      cases found : scopes.resolve? name.name with
      | none => exact .unknown missing found
      | some =>
        obtain ⟨symbol, known, named⟩ := shown.names_of_resolve? found
        simp only [known]
        exact .reference missing found (within _ _ known) named
  | .assignment target value _ => by
    have first := target.resolves shown within
    have second := value.resolves shown within
    have same := first.assignable?_eq shown within
    rw [Expression.bind]
    simp only
    split
    · rename_i id symbol stored
      obtain ⟨⟨_, _, bound⟩, _⟩ := assignable?_eq_some.mp stored
      rw [stored, bound] at same
      rw [bound] at first
      exact .assignment first same second
    · exact .invalidAssignment first (same.trans ‹_›) second
  | .binary left _ _ right _ => by
    have first := left.resolves shown within
    have second := right.resolves shown within
    rw [Expression.bind]
    split
    · rename_i error
      rw [Bool.or_eq_true] at error
      exact .invalidBinary first second (error.imp_right .inl)
    · rename_i proper
      rw [Bool.or_eq_true] at proper
      split
      · exact .binary first second proper ‹_›
      · exact .invalidBinary first second (.inr (.inr ‹_›))
  | .unary _ _ operand _ => by
    have inner := operand.resolves shown within
    rw [Expression.bind]
    split
    · exact .invalidUnary inner (.inl ‹_›)
    · split
      · exact .unary inner ‹_› ‹_›
      · exact .invalidUnary inner (.inr ‹_›)
  | .parenthesized inner _ => by
    rw [Expression.bind]
    exact .parenthesized (inner.resolves shown within)
  | .call target arguments .. => by
    have callee := target.resolves shown within
    have passed := resolves_bindArguments shown within arguments
    rw [Expression.bind]
    simp only
    split
    · exact .call callee ‹_› passed
    · exact .invalidCall callee ‹_› passed
  | .ternary condition yes no _ => by
    rw [Expression.bind]
    exact .ternary (condition.resolves shown within)
      (yes.resolves shown within) (no.resolves shown within)

theorem resolves_bindArguments (shown : env.Shows scopes) (within : env.symbols.Within table) :
    ∀ arguments, ArgumentsResolve table scopes arguments (bindArguments env arguments).1
  | [] => by
    rw [bindArguments]
    exact .nil
  | e :: rest => by
    rw [bindArguments]
    exact .cons (e.resolves shown within) (resolves_bindArguments shown within rest)

end

mutual

/-- Binding resolves the references of a statement by the rule. -/
theorem Statement.Binds.resolves {s : Statement} {b b' s'} :
    s.Binds b s' b' → ∀ ⦃scopes⦄, b.Shows scopes → b'.symbols.Within table →
      s.Resolves table scopes s'
  | .function redeclared parameters typed body, _, before, within => by
    obtain ⟨prepared, same, named⟩ := before.prepare redeclared parameters typed
    rw [symbols_leaveFunction] at within
    have later := body.grows.within.trans within
    rw [symbols_enterFunction, declareFunction, declare_symbols] at later
    refine .function ((SymbolTable.names_alloc _ _).mono later) ?_ ?_
    · rw [← bindParameters_names parameters, List.forall₂_map_left_iff, List.forall₂_map_right_iff,
        List.forall₂_same]
      intro p mem
      exact (named p mem).mono later.of_alloc
    · rw [zip_parameterNames parameters]
      exact body.resolves
        (prepared.enterFunction same named (ne_empty_of_mem_params parameters)) within
  | .declare redeclared typed value, _, before, within => by
    obtain ⟨rfl, _, rfl⟩ := declaration_note redeclared typed value
    change SymbolTable.Within (Binder.declare _ _ _ _).symbols table at within
    rw [declare_symbols] at within
    exact .declare ((SymbolTable.names_alloc _ _).mono within)
      (Expression.resolves before within.of_alloc _)
  | .ifThen condition yes, _, before, within => by
    obtain ⟨rfl, rfl⟩ := bindExpression_eq condition
    exact .ifThen (Expression.resolves before (yes.grows.within.trans within) _)
      (yes.resolves before within)
  | .ifElse condition yes no, _, before, within => by
    obtain ⟨rfl, rfl⟩ := bindExpression_eq condition
    have later := no.grows.within.trans within
    exact .ifElse (Expression.resolves before (yes.grows.within.trans later) _)
      (yes.resolves before later) (no.resolves (yes.shows before) within)
  | .whileLoop condition body, _, before, within => by
    obtain ⟨rfl, rfl⟩ := bindExpression_eq condition
    exact .whileLoop (Expression.resolves before (body.grows.within.trans within) _)
      (body.resolves before within)
  | .doWhile body condition, _, before, within => by
    obtain ⟨rfl, rfl⟩ := bindExpression_eq condition
    exact .doWhile (body.resolves before within) (Expression.resolves (body.shows before) within _)
  | .block statements, _, before, within => .block (statements.resolves before.pushScope within)
  | .returnsUnit, _, _, _ => .returnsUnit
  | .returns value, _, before, within => by
    obtain ⟨rfl, rfl⟩ := bindExpression_eq value
    exact .returns (Expression.resolves before within _)
  | .breakLoop, _, _, _ => .breakLoop
  | .continueLoop, _, _, _ => .continueLoop
  | .print value, _, before, within => by
    obtain ⟨rfl, rfl⟩ := bindExpression_eq value
    exact .print (Expression.resolves before within _)
  | .expression value, _, before, within => by
    obtain ⟨rfl, rfl⟩ := bindExpression_eq value
    exact .expression (Expression.resolves before within _)

theorem BindsList.resolves {statements b b' bound} :
    BindsList statements b bound b' → ∀ ⦃scopes⦄, b.Shows scopes → b'.symbols.Within table →
        ResolvesList table scopes statements bound
  | .nil, _, _, _ => .nil
  | .cons first others, _, before, within =>
    .cons (first.resolves before (others.grows.within.trans within))
      (others.resolves (first.shows before) within)

end

end Resolved

end Bindery
