import Bindery.Proofs.Binding
import Bindery.Tree.Unplaced

/-!
Typing of bound programs.

`Bound.HasType symbols x t` says by rules, without reference to binding, that the bound
expression `x` has type `t` where the symbols are those of the table `symbols`;
`Bound.WellTyped symbols result s` says that the statement `s` is in order inside a body
that has to return `result`. No rule gives the type of something that was diagnosed, and
where no symbol has such a type no expression has (`HasType.proper`).

A file whose identifiers are all there and which binds without diagnostics is well typed
against its own symbols (`SourceFile.wellTyped_of_clean`). Binding finds the rules of
expressions in one walk (`Expression.bind_hasType`), while the rules for returns come
from the check of return paths afterwards (`Statement.Binds.wellTyped`).
-/

namespace Bindery

/-! ### Types without diagnosed parts -/

/-- A type no part of which is the type of something diagnosed. -/
inductive Ty.Proper : Ty → Prop where
  | plain {t : Ty} : t.isError = false → t.signature? = none → Ty.Proper t
  | function {ps : List Ty} {r : Ty} : (∀ p ∈ ps, p.Proper) → r.Proper → Ty.Proper (.function ps r)

namespace Ty.Proper

variable {t : Ty}

theorem isError_eq_false (h : t.Proper) : t.isError = false := by
  cases h with
  | plain sound => exact sound
  | function => rfl

theorem eq_unit (h : t.Proper) (noValue : t.needsNoValue = true) : t = .unit := by
  cases t with
  | error => cases h.isError_eq_false
  | unit => rfl
  | _ => cases noValue

theorem of_signature? {r : Ty} {ps : List Ty} (h : t.Proper)
    (signature : t.signature? = some (ps, r)) :
    t = .function ps r ∧ (∀ p ∈ ps, p.Proper) ∧ r.Proper := by
  cases h with
  | plain _ none =>
    rw [none] at signature
    cases signature
  | function parameters result =>
    cases signature
    exact ⟨rfl, parameters, result⟩

theorem literal (value : Literal) : value.ty.Proper := by
  cases value <;> exact .plain rfl rfl

theorem of_ofName? {name : String} (named : Ty.ofName? name = some t) : t.Proper := by
  have member : (name, t) ∈ Ty.named := by
    unfold Ty.ofName? at named
    obtain ⟨before, after, split, _⟩ := List.lookup_eq_some_iff.mp named
    rw [split]
    exact List.mem_append_right _ List.mem_cons_self
  revert member
  simp only [Ty.named, List.mem_cons, Prod.mk.injEq, List.not_mem_nil, or_false]
  rintro (⟨_, rfl⟩ | ⟨_, rfl⟩ | ⟨_, rfl⟩ | ⟨_, rfl⟩ | ⟨_, rfl⟩ | ⟨_, rfl⟩ | ⟨_, rfl⟩ | ⟨_, rfl⟩ |
    ⟨_, rfl⟩) <;> exact .plain rfl rfl

end Ty.Proper

variable {operator : BinaryOperator} {result : Ty} {operation : BinaryOperation}
    {first second : SymbolTable} {symbol : Symbol} {condition : Bound.Expression} {b b' : Binder}
    {seen : List String} {parameters : List Parameter} {params : List (SymbolId × String × Ty)}
    {name : Identifier}

/-- The result of an operation has the type of the operands or one of its own. -/
theorem BinaryOperation.result_cases {t : Ty} (found : on operator t = some (operation, result)) :
    result = t ∨ result = .boolean ∨ result = .string := by
  cases operator <;> simp only [on] at found <;> grind

theorem BinaryOperation.proper_of_resolve? {left right : Ty} (proper : left.Proper)
    (found : resolve? left operator right = some (operation, result)) : result.Proper := by
  unfold resolve? at found
  split at found
  · rcases result_cases found with rfl | rfl | rfl
    · exact proper
    · exact .plain rfl rfl
    · exact .plain rfl rfl
  · cases found

theorem UnaryOperation.proper_of_resolve? {operand : Ty} {operator : UnaryOperator}
    {operation : UnaryOperation} (proper : operand.Proper)
    (found : resolve? operator operand = some (operation, result)) : result.Proper := by
  have cases_ : result = operand ∨ result = .boolean := by
    cases operator <;> simp only [resolve?] at found <;> grind
  rcases cases_ with rfl | rfl
  · exact proper
  · exact .plain rfl rfl

/-! ### Identifiers of a tree -/

mutual

def Expression.identifiers : Expression → List Identifier
  | .literal .. => []
  | .reference name => [name]
  | .assignment target value _ => target.identifiers ++ value.identifiers
  | .binary left _ _ right _ => left.identifiers ++ right.identifiers
  | .unary _ _ operand _ => operand.identifiers
  | .parenthesized inner _ => inner.identifiers
  | .call target arguments .. => target.identifiers ++ identifiersOfArguments arguments
  | .ternary condition yes no _ => condition.identifiers ++ (yes.identifiers ++ no.identifiers)

def identifiersOfArguments : List Expression → List Identifier
  | [] => []
  | e :: rest => e.identifiers ++ identifiersOfArguments rest

end

def Parameter.identifiers (p : Parameter) : List Identifier := [p.name, p.typeName]

mutual

/-- Every identifier of a statement: declared names, names of parameters, names that are
referred to, and names of types. -/
def Statement.identifiers : Statement → List Identifier
  | .function name parameters result body .. =>
    name :: (parameters.flatMap Parameter.identifiers ++ (result.toList ++ identifiersOfList body))
  | .declare name typeName _ value _ => name :: (typeName.toList ++ value.identifiers)
  | .ifThen condition yes _ => condition.identifiers ++ yes.identifiers
  | .ifElse condition yes no _ => condition.identifiers ++ (yes.identifiers ++ no.identifiers)
  | .whileLoop condition body _ => condition.identifiers ++ body.identifiers
  | .doWhile body condition _ => body.identifiers ++ condition.identifiers
  | .block statements _ => identifiersOfList statements
  | .returns none _ => []
  | .returns (some value) _ => value.identifiers
  | .breakLoop _ => []
  | .continueLoop _ => []
  | .print value _ => value.identifiers
  | .expression value _ => value.identifiers

def identifiersOfList : List Statement → List Identifier
  | [] => []
  | s :: rest => s.identifiers ++ identifiersOfList rest

end

def SourceFile.identifiers (file : SourceFile) : List Identifier :=
  identifiersOfList file.statements

def AllNamed (identifiers : List Identifier) : Prop := ∀ i ∈ identifiers, i.isMissing = false

@[simp] theorem allNamed_append {first second : List Identifier} :
    AllNamed (first ++ second) ↔ AllNamed first ∧ AllNamed second :=
  List.forall_mem_append

@[simp] theorem allNamed_cons {i : Identifier} {rest : List Identifier} :
    AllNamed (i :: rest) ↔ i.isMissing = false ∧ AllNamed rest :=
  List.forall_mem_cons

/-! ### Typing rules -/

/-- Every symbol of a table is at its place in another one. -/
def SymbolTable.Within (first second : SymbolTable) : Prop :=
  ∀ s symbol, first.get? s = some symbol → second.get? s = some symbol

theorem SymbolTable.within_of_append (grows : first.toList <+: second.toList) :
    first.Within second := by
  intro s symbol known
  obtain ⟨added, same⟩ := grows
  have inside : first.toList[s]? = some symbol := by
    rw [toList, Array.getElem?_toList]
    exact known
  change second.symbols[s]? = some symbol
  rw [← Array.getElem?_toList, ← toList, ← same]
  exact List.getElem?_append_left (List.getElem?_eq_some_iff.mp inside).1 ▸ inside

theorem SymbolTable.Within.of_alloc (within : (first.alloc symbol).Within second) :
    first.Within second :=
  fun s other known => within s other
    (within_of_append ⟨[symbol], (first.toList_alloc symbol).symm⟩ s other known)

theorem SymbolTable.Within.trans {third : SymbolTable} (left : first.Within second)
    (right : second.Within third) : first.Within third :=
  fun s symbol known => right s symbol (left s symbol known)

namespace Bound

mutual

/-- `HasType symbols x t`: with these symbols, `x` is in order and has type `t`. -/
inductive HasType (symbols : SymbolTable) : Expression → Ty → Prop where
  | literal {value span} : HasType symbols (.literal value span) value.ty
  | reference {s symbol span} : symbols.get? s = some symbol →
      HasType symbols (.reference s symbol.ty span) symbol.ty
  | assignment {s symbol value t span} : symbols.get? s = some symbol →
      symbol.kind = .binding false → HasType symbols value t →
      t.assignableTo symbol.ty = true →
      HasType symbols (.assignment s value symbol.ty span) symbol.ty
  | binary {operator operation left right l r t span} : HasType symbols left l →
      HasType symbols right r → BinaryOperation.resolve? l operator r = some (operation, t) →
      HasType symbols (.binary operation left right t span) t
  | unary {operator operation operand o t span} : HasType symbols operand o →
      UnaryOperation.resolve? operator o = some (operation, t) →
      HasType symbols (.unary operation operand t span) t
  | parenthesized {inner t span} : HasType symbols inner t →
      HasType symbols (.parenthesized inner span) t
  | call {target arguments parameters result span} :
      HasType symbols target (.function parameters result) →
      ArgumentsFit symbols arguments parameters →
      HasType symbols (.call target arguments result span) result
  | ternary {condition yes no y n span} : HasType symbols condition .boolean →
      HasType symbols yes y → HasType symbols no n →
      HasType symbols (.ternary condition yes no (if y = n then y else .any) span)
        (if y = n then y else .any)

/-- Arguments that can be passed for parameters, one for each. -/
inductive ArgumentsFit (symbols : SymbolTable) : List Expression → List Ty → Prop where
  | nil : ArgumentsFit symbols [] []
  | cons {argument t arguments parameter parameters} : HasType symbols argument t →
      t.assignableTo parameter = true → ArgumentsFit symbols arguments parameters →
      ArgumentsFit symbols (argument :: arguments) (parameter :: parameters)

end

/-- The type that the rules give is the one that the node carries. -/
theorem HasType.ty_eq {symbols : SymbolTable} {x : Expression} {t : Ty} :
    HasType symbols x t → x.ty = t
  | .literal | .reference _ | .assignment _ _ _ _ | .binary _ _ _ | .unary _ _ | .call _ _
  | .ternary .. => rfl
  | .parenthesized inner => inner.ty_eq

mutual

/-- More symbols keep the types. -/
theorem HasType.mono {x t} (grows : first.Within second) :
    HasType first x t → HasType second x t
  | .literal => .literal
  | .reference known => .reference (grows _ _ known)
  | .assignment known kind value fits => .assignment (grows _ _ known) kind (value.mono grows) fits
  | .binary left right found => .binary (left.mono grows) (right.mono grows) found
  | .unary operand found => .unary (operand.mono grows) found
  | .parenthesized inner => .parenthesized (inner.mono grows)
  | .call target arguments => .call (target.mono grows) (arguments.mono grows)
  | .ternary condition yes no => .ternary (condition.mono grows) (yes.mono grows) (no.mono grows)

theorem ArgumentsFit.mono {arguments parameters} (grows : first.Within second) :
    ArgumentsFit first arguments parameters → ArgumentsFit second arguments parameters
  | .nil => .nil
  | .cons argument fits others => .cons (argument.mono grows) fits (others.mono grows)

end

mutual

/-- An expression and all expressions inside it. -/
def Expression.nodes : Expression → List Expression
  | x@(.literal ..) => [x]
  | x@(.reference ..) => [x]
  | x@(.assignment _ value ..) => x :: value.nodes
  | x@(.binary _ left right ..) => x :: (left.nodes ++ right.nodes)
  | x@(.unary _ operand ..) => x :: operand.nodes
  | x@(.parenthesized inner _) => x :: inner.nodes
  | x@(.call target arguments ..) => x :: (target.nodes ++ nodesOfArguments arguments)
  | x@(.ternary condition yes no ..) => x :: (condition.nodes ++ (yes.nodes ++ no.nodes))
  | x@(.error _) => [x]

def nodesOfArguments : List Expression → List Expression
  | [] => []
  | x :: rest => x.nodes ++ nodesOfArguments rest

end

def ProperSymbols (symbols : SymbolTable) : Prop :=
  ∀ symbol ∈ symbols.toList, symbol.ty.Proper

variable {symbols : SymbolTable}

theorem ProperSymbols.of_get? (proper : ProperSymbols symbols) {s : SymbolId}
    (known : symbols.get? s = some symbol) : symbol.ty.Proper :=
  proper symbol (Array.mem_toList_iff.mpr (Array.mem_of_getElem? known))

/-- A type by the rules is proper. -/
theorem HasType.proper {symbols : SymbolTable} (proper : ProperSymbols symbols) {x : Expression}
    {t : Ty} :
    HasType symbols x t → t.Proper
  | .literal => .literal _
  | .reference known | .assignment known _ _ _ => proper.of_get? known
  | .binary left _ found => BinaryOperation.proper_of_resolve? (left.proper proper) found
  | .unary operand found => UnaryOperation.proper_of_resolve? (operand.proper proper) found
  | .parenthesized inner => inner.proper proper
  | .call target _ => ((target.proper proper).of_signature? rfl).2.2
  | .ternary (y := y) (n := n) _ yes _ => by
    split
    · exact yes.proper proper
    · exact .plain rfl rfl

theorem HasType.sound {x : Expression} (typed : HasType symbols x x.ty)
    (proper : ProperSymbols symbols) : x.isError = false :=
  (typed.proper proper).isError_eq_false

mutual

/-- All nodes of a typed expression have proper types. -/
theorem HasType.proper_nodes {x t} (proper : ProperSymbols symbols) :
    HasType symbols x t → ∀ node ∈ x.nodes, node.ty.Proper
  | run@(.literal) | run@(.reference _) => by
    rw [Expression.nodes, List.forall_mem_singleton]
    exact run.proper proper
  | run@(.assignment _ _ value _) => by
    rw [Expression.nodes, List.forall_mem_cons]
    exact ⟨run.proper proper, value.proper_nodes proper⟩
  | run@(.binary left right _) => by
    rw [Expression.nodes, List.forall_mem_cons, List.forall_mem_append]
    exact ⟨run.proper proper, left.proper_nodes proper, right.proper_nodes proper⟩
  | run@(.unary operand _) => by
    rw [Expression.nodes, List.forall_mem_cons]
    exact ⟨run.proper proper, operand.proper_nodes proper⟩
  | .parenthesized inner => by
    rw [Expression.nodes, List.forall_mem_cons]
    refine ⟨?_, inner.proper_nodes proper⟩
    rw [Expression.ty, inner.ty_eq]
    exact inner.proper proper
  | run@(.call target arguments) => by
    rw [Expression.nodes, List.forall_mem_cons, List.forall_mem_append]
    exact ⟨run.proper proper, target.proper_nodes proper, arguments.proper_nodes proper⟩
  | run@(.ternary condition yes no) => by
    rw [Expression.nodes, List.forall_mem_cons, List.forall_mem_append, List.forall_mem_append]
    exact ⟨run.proper proper, condition.proper_nodes proper, yes.proper_nodes proper,
      no.proper_nodes proper⟩

theorem ArgumentsFit.proper_nodes {arguments parameters} (proper : ProperSymbols symbols) :
    ArgumentsFit symbols arguments parameters → ∀ node ∈ nodesOfArguments arguments, node.ty.Proper
  | .nil => fun _ mem => nomatch mem
  | .cons argument _ others => by
    rw [nodesOfArguments, List.forall_mem_append]
    exact ⟨argument.proper_nodes proper, others.proper_nodes proper⟩

end

end Bound

/-! ### Binding expressions -/

open Bindery.Bound (ArgumentsFit HasType ProperSymbols)

theorem checkAssignable_eq_nil {value : Bound.Expression} {target : Ty}
    (clean : checkAssignable value target = []) : value.ty.assignableTo target = true := by
  unfold checkAssignable at clean
  split at clean
  · assumption
  · cases clean

theorem ty_of_checkCondition (sound : condition.isError = false)
    (clean : checkCondition condition = []) : condition.ty = .boolean := by
  unfold checkCondition at clean
  rw [sound, Bool.false_or] at clean
  split at clean
  · exact eq_of_beq ‹_›
  · cases clean

theorem checkCondition_eq_nil {symbols : SymbolTable} (proper : ProperSymbols symbols)
    (typed : HasType symbols condition condition.ty) (clean : checkCondition condition = []) :
    HasType symbols condition .boolean :=
  ty_of_checkCondition (typed.sound proper) clean ▸ typed

/-- Arguments that pass their check fit. -/
theorem argumentsFit_of_check {symbols : SymbolTable} :
    ∀ {arguments : List Bound.Expression} {parameters : List Ty},
      (∀ a ∈ arguments, HasType symbols a a.ty) → arguments.length = parameters.length →
        checkArguments arguments parameters = [] → ArgumentsFit symbols arguments parameters
  | [], [], _, _, _ => .nil
  | _ :: _, _ :: _, typed, length, clean => by
    rw [checkArguments] at clean
    obtain ⟨first, others⟩ := List.append_eq_nil_iff.mp clean
    rw [List.forall_mem_cons] at typed
    refine .cons typed.1 ?_ (argumentsFit_of_check typed.2 (Nat.succ.inj length) others)
    split at first
    · assumption
    · cases first

section Clean

variable {env : Environment} {target value left right operand condition yes no : Expression}
    {operatorSpan span : Span}

/-- A reference without findings has found a symbol. -/
theorem bindReference_clean (named : name.isMissing = false)
    (clean : (bindReference env name).2 = []) :
    ∃ id symbol, env.scopes.get? name.name = some id ∧ env.symbols.get? id = some symbol ∧
      (bindReference env name).1 = .reference id symbol.ty name.span := by
  unfold bindReference at clean ⊢
  rw [named, if_neg Bool.false_ne_true] at clean ⊢
  cases seen : env.scopes.get? name.name with
  | none =>
    rw [seen] at clean
    cases clean
  | some id =>
    rw [seen] at clean
    cases known : env.symbols.get? id with
    | none =>
      simp only [known] at clean
      cases clean
    | some symbol => exact ⟨id, symbol, rfl, known, by simp [known]⟩

/-- What an assignment without findings stores to. -/
theorem Expression.assignment_clean
    (sound : (target.bind env).2 = [] → (target.bind env).1.isError = false)
    (clean : ((Expression.assignment target value span).bind env).2 = []) :
    (target.bind env).2 = [] ∧ (value.bind env).2 = [] ∧
      ∃ id symbol, assignable? env.symbols (target.bind env).1 = some (id, symbol) ∧
        symbol.isReadOnly = false ∧ checkAssignable (value.bind env).1 symbol.ty = [] ∧
        ((Expression.assignment target value span).bind env).1 =
          .assignment id (value.bind env).1 symbol.ty span := by
  rw [Expression.bind] at clean ⊢
  cases found : assignable? env.symbols (target.bind env).1 with
  | some result =>
    obtain ⟨id, symbol⟩ := result
    simp only [found, List.append_eq_nil_iff] at clean ⊢
    obtain ⟨⟨⟨first, writable⟩, second⟩, fits⟩ := clean
    refine ⟨first, second, id, symbol, rfl, ?_, fits, rfl⟩
    cases readOnly : symbol.isReadOnly with
    | false => rfl
    | true => simp [readOnly] at writable
  | none =>
    simp only [found, List.append_eq_nil_iff] at clean
    obtain ⟨⟨first, _⟩, invalid⟩ := clean
    simp [sound first] at invalid

theorem Expression.binary_clean
    (soundLeft : (left.bind env).2 = [] → (left.bind env).1.isError = false)
    (soundRight : (right.bind env).2 = [] → (right.bind env).1.isError = false)
    (clean : ((Expression.binary left operator operatorSpan right span).bind env).2 = []) :
    (left.bind env).2 = [] ∧ (right.bind env).2 = [] ∧ ∃ operation t,
      BinaryOperation.resolve? (left.bind env).1.ty operator (right.bind env).1.ty =
        some (operation, t) ∧
      ((Expression.binary left operator operatorSpan right span).bind env).1 =
        .binary operation (left.bind env).1 (right.bind env).1 t span := by
  rw [Expression.bind] at clean ⊢
  cases error : (left.bind env).1.isError || (right.bind env).1.isError with
  | true =>
    simp only [error, if_true, List.append_eq_nil_iff] at clean
    rw [soundLeft clean.1, soundRight clean.2] at error
    cases error
  | false =>
    simp only [error, Bool.false_eq_true, if_false] at clean ⊢
    cases found : BinaryOperation.resolve? (left.bind env).1.ty operator (right.bind env).1.ty with
    | none => simp [found] at clean
    | some result =>
      simp only [found, List.append_eq_nil_iff] at clean ⊢
      exact ⟨clean.1, clean.2, result.1, result.2, rfl, rfl⟩

theorem Expression.unary_clean {operator : UnaryOperator}
    (sound : (operand.bind env).2 = [] → (operand.bind env).1.isError = false)
    (clean : ((Expression.unary operator operatorSpan operand span).bind env).2 = []) :
    (operand.bind env).2 = [] ∧ ∃ operation t,
      UnaryOperation.resolve? operator (operand.bind env).1.ty = some (operation, t) ∧
      ((Expression.unary operator operatorSpan operand span).bind env).1 =
        .unary operation (operand.bind env).1 t span := by
  rw [Expression.bind] at clean ⊢
  cases error : (operand.bind env).1.isError with
  | true =>
    simp only [error, if_true] at clean
    rw [sound clean] at error
    cases error
  | false =>
    simp only [error, Bool.false_eq_true, if_false] at clean ⊢
    cases found : UnaryOperation.resolve? operator (operand.bind env).1.ty with
    | none => simp [found] at clean
    | some result =>
      simp only [found] at clean ⊢
      exact ⟨clean, result.1, result.2, rfl, rfl⟩

theorem Expression.call_clean {arguments : List Expression} {argumentsSpan : Span}
    (sound : (target.bind env).2 = [] → (target.bind env).1.isError = false)
    (clean : ((Expression.call target arguments argumentsSpan span).bind env).2 = []) :
    (target.bind env).2 = [] ∧ (bindArguments env arguments).2 = [] ∧ ∃ parameters result,
      (target.bind env).1.ty.signature? = some (parameters, result) ∧
      checkArgumentCount argumentsSpan parameters.length (bindArguments env arguments).1.length =
        [] ∧
      checkArguments (bindArguments env arguments).1 parameters = [] ∧
      ((Expression.call target arguments argumentsSpan span).bind env).1 =
        .call (target.bind env).1 (bindArguments env arguments).1 result span := by
  rw [Expression.bind] at clean ⊢
  cases signature : (target.bind env).1.ty.signature? with
  | some result =>
    simp only [signature, List.append_eq_nil_iff] at clean ⊢
    obtain ⟨⟨⟨first, others⟩, count⟩, fits⟩ := clean
    exact ⟨first, others, result.1, result.2, rfl, count, fits, rfl⟩
  | none =>
    simp only [signature, List.append_eq_nil_iff] at clean
    simp [sound clean.1.1] at clean

theorem Expression.ternary_clean
    (clean : ((Expression.ternary condition yes no span).bind env).2 = []) :
    (condition.bind env).2 = [] ∧ (yes.bind env).2 = [] ∧ (no.bind env).2 = [] ∧
      checkCondition (condition.bind env).1 = [] := by
  rw [Expression.bind] at clean
  simpa [and_assoc] using clean

end Clean

theorem Symbol.kind_of_isVariable (stored : symbol.isVariable = true) :
    ∃ readOnly, symbol.kind = .binding readOnly := by
  unfold isVariable at stored
  split at stored
  · exact ⟨_, ‹_›⟩
  · cases stored

variable {env : Environment}

mutual

/-- An expression with all its names that binds without findings is well typed. -/
theorem Expression.bind_hasType (proper : ProperSymbols env.symbols) :
    ∀ e : Expression, AllNamed e.identifiers → (e.bind env).2 = [] →
      HasType env.symbols (e.bind env).1 (e.bind env).1.ty
  | .literal .., _, _ => .literal
  | .reference _, named, clean => by
    obtain ⟨_, _, _, known, same⟩ := bindReference_clean (allNamed_cons.mp named).1 clean
    rw [Expression.bind, same]
    exact .reference known
  | .assignment target value _, named, clean => by
    rw [Expression.identifiers, allNamed_append] at named
    obtain ⟨_, second, _, symbol, found, writable, fits, same⟩ := Expression.assignment_clean
      (fun first => (target.bind_hasType proper named.1 first).sound proper) clean
    obtain ⟨_, known, variable_⟩ := assignable?_eq_some.mp found
    obtain ⟨readOnly, kind⟩ := Symbol.kind_of_isVariable variable_
    have mutable : readOnly = false := by
      simpa only [Symbol.isReadOnly, kind] using writable
    subst mutable
    rw [same]
    exact .assignment known kind (value.bind_hasType proper named.2 second)
      (checkAssignable_eq_nil fits)
  | .binary left _ _ right _, named, clean => by
    rw [Expression.identifiers, allNamed_append] at named
    obtain ⟨first, second, _, _, found, same⟩ := Expression.binary_clean
      (fun first => (left.bind_hasType proper named.1 first).sound proper)
      (fun second => (right.bind_hasType proper named.2 second).sound proper) clean
    rw [same]
    exact .binary (left.bind_hasType proper named.1 first)
      (right.bind_hasType proper named.2 second) found
  | .unary _ _ operand _, named, clean => by
    obtain ⟨inner, _, _, found, same⟩ := Expression.unary_clean
      (fun inner => (operand.bind_hasType proper named inner).sound proper) clean
    rw [same]
    exact .unary (operand.bind_hasType proper named inner) found
  | .parenthesized inner _, named, clean =>
    .parenthesized (inner.bind_hasType proper named clean)
  | .call target arguments .., named, clean => by
    rw [Expression.identifiers, allNamed_append] at named
    obtain ⟨first, others, _, _, signature, count, fits, same⟩ := Expression.call_clean
      (fun first => (target.bind_hasType proper named.1 first).sound proper) clean
    have typed := target.bind_hasType proper named.1 first
    have function := ((typed.proper proper).of_signature? signature).1
    rw [same]
    refine .call (function ▸ typed) (argumentsFit_of_check
      (bindArguments_hasType proper arguments named.2 others) ?_ fits)
    unfold checkArgumentCount at count
    split at count
    · assumption
    · cases count
  | .ternary condition yes no _, named, clean => by
    rw [Expression.identifiers, allNamed_append, allNamed_append] at named
    obtain ⟨test, first, second, boolean⟩ := Expression.ternary_clean clean
    have tested := condition.bind_hasType proper named.1 test
    exact .ternary (checkCondition_eq_nil proper tested boolean)
      (yes.bind_hasType proper named.2.1 first)
      (no.bind_hasType proper named.2.2 second)

theorem bindArguments_hasType (proper : ProperSymbols env.symbols) :
    ∀ arguments : List Expression, AllNamed (identifiersOfArguments arguments) →
      (bindArguments env arguments).2 = [] →
        ∀ a ∈ (bindArguments env arguments).1, HasType env.symbols a a.ty
  | [], _, _ => fun _ mem => nomatch mem
  | e :: rest, named, clean => by
    rw [identifiersOfArguments, allNamed_append] at named
    obtain ⟨first, others⟩ := List.append_eq_nil_iff.mp clean
    rw [bindArguments, List.forall_mem_cons]
    exact ⟨e.bind_hasType proper named.1 first,
      bindArguments_hasType proper rest named.2 others⟩

end

/-! ### Rules for statements -/

namespace Bound

mutual

/-- `WellTyped symbols result s`: inside a body that has to return `result`, the statement
`s` is in order. -/
inductive WellTyped (symbols : SymbolTable) : Ty → Statement → Prop where
  /-- The body of a function is checked for the function's own result. If its end can be
  reached, it returns no value and a return is added there. -/
  | function {outer f name parameters types result body insertReturn bodySpan span} :
      symbols.get? f = some ⟨name, .function types result, .function parameters⟩ →
      parameters.map (fun p => (symbols.get? p).map Symbol.ty) = types.map some →
      (∀ p ∈ parameters, ∃ symbol, symbols.get? p = some symbol ∧ symbol.kind = .parameter) →
      WellTypedList symbols result body →
      (EndsList body ∧ insertReturn = false ∨
        ¬ EndsList body ∧ result = .unit ∧ insertReturn = true) →
      WellTyped symbols outer (.function f parameters body insertReturn bodySpan span)
  | declare {outer s symbol value t span} : symbols.get? s = some symbol →
      symbol.isVariable = true → HasType symbols value t → t.assignableTo symbol.ty = true →
      WellTyped symbols outer (.declare s value span)
  | ifThen {outer condition yes span} : HasType symbols condition .boolean →
      WellTyped symbols outer yes → WellTyped symbols outer (.ifThen condition yes span)
  | ifElse {outer condition yes no span} : HasType symbols condition .boolean →
      WellTyped symbols outer yes → WellTyped symbols outer no →
      WellTyped symbols outer (.ifElse condition yes no span)
  | whileLoop {outer condition body span} : HasType symbols condition .boolean →
      WellTyped symbols outer body → WellTyped symbols outer (.whileLoop condition body span)
  | doWhile {outer body condition span} : WellTyped symbols outer body →
      HasType symbols condition .boolean → WellTyped symbols outer (.doWhile body condition span)
  | block {outer statements span} : WellTypedList symbols outer statements →
      WellTyped symbols outer (.block statements span)
  | returnsUnit {span} : WellTyped symbols .unit (.returns none span)
  | returns {outer value t span} : HasType symbols value t → t.assignableTo outer = true →
      WellTyped symbols outer (.returns (some value) span)
  | breakLoop {outer span} : WellTyped symbols outer (.breakLoop span)
  | continueLoop {outer span} : WellTyped symbols outer (.continueLoop span)
  | print {outer value t span} : HasType symbols value t →
      WellTyped symbols outer (.print value span)
  | expression {outer value t span} : HasType symbols value t →
      WellTyped symbols outer (.expression value span)

inductive WellTypedList (symbols : SymbolTable) : Ty → List Statement → Prop where
  | nil {outer} : WellTypedList symbols outer []
  | cons {outer s rest} : WellTyped symbols outer s → WellTypedList symbols outer rest →
      WellTypedList symbols outer (s :: rest)

end

mutual

def Statement.nodes : Statement → List Expression
  | .function _ _ body .. => nodesOfList body
  | .declare _ value _ => value.nodes
  | .ifThen condition yes _ => condition.nodes ++ yes.nodes
  | .ifElse condition yes no _ => condition.nodes ++ (yes.nodes ++ no.nodes)
  | .whileLoop condition body _ => condition.nodes ++ body.nodes
  | .doWhile body condition _ => body.nodes ++ condition.nodes
  | .block statements _ => nodesOfList statements
  | .returns none _ => []
  | .returns (some value) _ => value.nodes
  | .breakLoop _ => []
  | .continueLoop _ => []
  | .print value _ => value.nodes
  | .expression value _ => value.nodes

def nodesOfList : List Statement → List Expression
  | [] => []
  | s :: rest => s.nodes ++ nodesOfList rest

end

variable {symbols : SymbolTable}

mutual

theorem WellTyped.proper_nodes {outer s} (proper : ProperSymbols symbols) :
    WellTyped symbols outer s → ∀ node ∈ s.nodes, node.ty.Proper
  | .function _ _ _ body _ => body.proper_nodes proper
  | .declare _ _ value _ => value.proper_nodes proper
  | .ifThen condition yes => by
    rw [Statement.nodes, List.forall_mem_append]
    exact ⟨condition.proper_nodes proper, yes.proper_nodes proper⟩
  | .ifElse condition yes no => by
    rw [Statement.nodes, List.forall_mem_append, List.forall_mem_append]
    exact ⟨condition.proper_nodes proper, yes.proper_nodes proper, no.proper_nodes proper⟩
  | .whileLoop condition body => by
    rw [Statement.nodes, List.forall_mem_append]
    exact ⟨condition.proper_nodes proper, body.proper_nodes proper⟩
  | .doWhile body condition => by
    rw [Statement.nodes, List.forall_mem_append]
    exact ⟨body.proper_nodes proper, condition.proper_nodes proper⟩
  | .block statements => statements.proper_nodes proper
  | .returnsUnit | .breakLoop | .continueLoop => fun _ mem => nomatch mem
  | .returns value _ | .print value | .expression value => value.proper_nodes proper

theorem WellTypedList.proper_nodes {outer statements} (proper : ProperSymbols symbols) :
    WellTypedList symbols outer statements → ∀ node ∈ nodesOfList statements, node.ty.Proper
  | .nil => fun _ mem => nomatch mem
  | .cons first others => by
    rw [nodesOfList, List.forall_mem_append]
    exact ⟨first.proper_nodes proper, others.proper_nodes proper⟩

end

/-- A program that is well typed against its own symbols. Code outside of functions is
checked as a body that returns no value. -/
structure Program.WellTyped (p : Program) : Prop where
  symbols : ProperSymbols p.symbols
  nodes : ∀ node ∈ nodesOfList p.statements, node.ty.Proper
  statements : WellTypedList p.symbols .unit p.statements

end Bound

/-! ### Binding statements -/

open Binder
open Bindery.Bound (EndsList WellTyped WellTypedList)

theorem ProperSymbols.alloc {t : SymbolTable} {symbol : Symbol} (proper : ProperSymbols t)
    (sound : symbol.ty.Proper) : ProperSymbols (t.alloc symbol) := by
  intro other mem
  rw [SymbolTable.toList_alloc] at mem
  rcases List.mem_append.mp mem with old | new
  · exact proper other old
  · rw [List.mem_singleton.mp new]
    exact sound

theorem Binder.bindType?_clean {name : Option Identifier} {ty : Option Ty}
    (run : b.bindType? name = (ty, b')) (named : AllNamed name.toList) (clean : b'.found = []) :
    b' = b ∧ ∀ t, ty = some t → t.Proper := by
  cases name with
  | none =>
    cases run
    exact ⟨rfl, fun _ h => nomatch h⟩
  | some =>
    cases run
    obtain ⟨same, known⟩ := bindType_clean (b := b) rfl (allNamed_cons.mp named).1 clean
    refine ⟨same, fun t eq => ?_⟩
    cases eq
    exact .of_ofName? known

theorem Binder.bindParameters_proper (run : b.bindParameters seen parameters = (params, b'))
    (named : AllNamed (parameters.flatMap Parameter.identifiers)) (clean : b'.found = []) :
    ∀ p ∈ params, p.2.2.Proper := by
  induction parameters generalizing b seen params with
  | nil =>
    cases run
    exact fun _ mem => nomatch mem
  | cons p _ ih =>
    rw [List.flatMap_cons, allNamed_append] at named
    obtain ⟨first, others⟩ := named
    obtain ⟨name, typeName⟩ : p.name.isMissing = false ∧ p.typeName.isMissing = false :=
      ⟨(allNamed_cons.mp first).1, (allNamed_cons.mp (allNamed_cons.mp first).2).1⟩
    rw [bindParameters, name, if_neg Bool.false_ne_true] at run
    cases run
    have before := (bindParameters_eq rfl).1.clean clean
    rw [List.forall_mem_cons]
    refine ⟨?_, ih rfl others⟩
    have typed : (b.bindType p.typeName).2.found = [] := by
      change (Binder.alloc _ _).found = [] at before
      change (ite _ _ _ : Binder).found = [] at before
      split at before
      · exact absurd before found_report_ne_nil
      · exact before
    exact .of_ofName? (bindType_clean rfl typeName typed).2

/-- The symbols of parameters stand in the table with their types. -/
theorem Binder.get?_bindParameters (run : b.bindParameters seen parameters = (params, b')) :
    ∀ p ∈ params, b'.symbols.get? p.1 = some ⟨p.2.1, p.2.2, .parameter⟩ := by
  obtain ⟨_, _, symbols, ids⟩ := bindParameters_eq run
  intro p mem
  obtain ⟨i, bound, rfl⟩ := List.getElem_of_mem mem
  have id : params[i].1 = b.symbols.size + i := by
    have := congrArg (·[i]?) ids
    simpa [bound] using this
  change b'.symbols.symbols[params[i].1]? = _
  rw [← Array.getElem?_toList, ← SymbolTable.toList, symbols, id,
    ← SymbolTable.length_toList, List.getElem?_append_right (Nat.le_add_right ..)]
  simp [bound]

/-- An expression in which nothing was found is well typed. -/
theorem Binder.bindExpression_hasType {e : Expression} {e' : Bound.Expression}
    (run : b.bindExpression e = (e', b')) (named : AllNamed e.identifiers) (clean : b'.found = [])
    (proper : ProperSymbols b.symbols) : b' = b ∧ HasType b.symbols e' e'.ty := by
  obtain ⟨rfl, rfl⟩ := bindExpression_eq run
  have nothing := (found_note_eq_nil.mp clean).1
  refine ⟨?_, e.bind_hasType proper named nothing⟩
  rw [nothing]
  rfl

theorem Binder.found_enterFunction (b : Binder) (taken : Bool) (name : Identifier)
    (params : List (SymbolId × String × Ty)) (result : Ty) :
    (b.enterFunction taken name params result).found = b.found := by
  refine (declareParameters_grows
    ((b.declareFunction taken name params result).pushJump .function).pushScope params).2.2.trans ?_
  exact declare_found ..

section Function

variable {b₁ b₂ b₃ : Binder} {taken : Bool} {result : Option Identifier} {explicit : Option Ty}

/-- Before its body, a function in which nothing was found has made proper symbols. -/
theorem Binder.proper_enterFunction (redeclared : b.checkRedeclared name = (taken, b₁))
    (made : b₁.bindParameters [] parameters = (params, b₂))
    (typed : b₂.bindType? result = (explicit, b₃)) (clean : b₃.found = [])
    (named : AllNamed (parameters.flatMap Parameter.identifiers ++ result.toList))
    (proper : ProperSymbols b.symbols) :
    b₃ = b₂ ∧ (explicit.getD .unit).Proper ∧
      ProperSymbols (b₃.enterFunction taken name params (explicit.getD .unit)).symbols := by
  rw [allNamed_append] at named
  obtain ⟨rfl, types⟩ := bindType?_clean typed named.2 clean
  obtain ⟨grows, _, symbols, _⟩ := bindParameters_eq made
  obtain ⟨_, rfl⟩ := checkRedeclared_clean redeclared (grows.clean clean)
  have parameterTypes := bindParameters_proper made named.1 clean
  have returned : (explicit.getD .unit).Proper := by
    cases explicit with
    | none => exact .plain rfl rfl
    | some t => exact types t rfl
  have before : ProperSymbols b₃.symbols := by
    intro symbol mem
    rw [symbols] at mem
    rcases List.mem_append.mp mem with old | new
    · exact proper symbol old
    · obtain ⟨p, inside, rfl⟩ := List.mem_map.mp new
      exact parameterTypes p inside
  refine ⟨rfl, returned, ?_⟩
  rw [symbols_enterFunction, declareFunction, declare_symbols]
  refine ProperSymbols.alloc before (.function (fun t mem => ?_) returned)
  obtain ⟨p, inside, rfl⟩ := List.mem_map.mp mem
  exact parameterTypes p inside

end Function

/-- A declaration in which nothing was found has a well-typed value and a proper type. -/
theorem Binder.proper_declare {b₁ b₂ b₃ : Binder} {taken : Bool} {typeName : Option Identifier}
    {explicit : Option Ty} {value : Expression} {value' : Bound.Expression}
    (redeclared : b.checkRedeclared name = (taken, b₁))
    (typed : b₁.bindType? typeName = (explicit, b₂))
    (bound : b₂.bindExpression value = (value', b₃)) (clean : b₃.found = [])
    (named : AllNamed (typeName.toList ++ value.identifiers)) (proper : ProperSymbols b.symbols) :
    b₃ = b ∧ HasType b.symbols value' value'.ty ∧ (explicit.getD value'.ty).Proper := by
  rw [allNamed_append] at named
  obtain ⟨_, same⟩ := bindExpression_eq bound
  have second : b₂.found = [] := (found_note_eq_nil.mp (same ▸ clean)).2
  obtain ⟨rfl, types⟩ := bindType?_clean typed named.1 second
  obtain ⟨_, rfl⟩ := checkRedeclared_clean redeclared second
  obtain ⟨rfl, valueTyped⟩ := bindExpression_hasType bound named.2 clean proper
  refine ⟨rfl, valueTyped, ?_⟩
  cases explicit with
  | none => exact valueTyped.proper proper
  | some t => exact types t rfl

mutual

/-- Without findings, every symbol that is made has a proper type. -/
theorem Statement.Binds.properSymbols {s : Statement} {b b' s'} :
    s.Binds b s' b' → AllNamed s.identifiers → b'.found = [] → ProperSymbols b.symbols →
      ProperSymbols b'.symbols
  | .function redeclared parameters typed body, named, clean, proper => by
    simp only [Statement.identifiers, allNamed_cons, allNamed_append] at named
    obtain ⟨_, parameterNames, resultName, bodyNames⟩ := named
    have inner := (leaveFunction_clean clean).1
    have before := (found_enterFunction ..).symm.trans (body.grows.clean inner)
    obtain ⟨_, _, entered⟩ := proper_enterFunction redeclared parameters typed before
      (allNamed_append.mpr ⟨parameterNames, resultName⟩) proper
    rw [symbols_leaveFunction]
    exact body.properSymbols bodyNames inner entered
  | .declare redeclared typed value, named, clean, proper => by
    simp only [Statement.identifiers, allNamed_cons, allNamed_append] at named
    have before := (found_note_eq_nil.mp clean).2
    rw [declare_found] at before
    obtain ⟨rfl, _, sound⟩ := proper_declare redeclared typed value before
      (allNamed_append.mpr named.2) proper
    change ProperSymbols (Binder.declare _ _ _ _).symbols
    rw [declare_symbols]
    exact ProperSymbols.alloc proper sound
  | .ifThen condition yes, named, clean, proper => by
    obtain ⟨rfl, rfl⟩ := bindExpression_eq condition
    rw [Statement.identifiers, allNamed_append] at named
    exact yes.properSymbols named.2 (found_note_eq_nil.mp clean).2 proper
  | .ifElse condition yes no, named, clean, proper => by
    obtain ⟨rfl, rfl⟩ := bindExpression_eq condition
    rw [Statement.identifiers, allNamed_append, allNamed_append] at named
    have second := (found_note_eq_nil.mp clean).2
    exact no.properSymbols named.2.2 second
      (yes.properSymbols named.2.1 (no.grows.clean second) proper)
  | .whileLoop condition body, named, clean, proper => by
    obtain ⟨rfl, rfl⟩ := bindExpression_eq condition
    rw [Statement.identifiers, allNamed_append] at named
    exact body.properSymbols named.2 (found_note_eq_nil.mp clean).2 proper
  | .doWhile body condition, named, clean, proper => by
    obtain ⟨rfl, rfl⟩ := bindExpression_eq condition
    rw [Statement.identifiers, allNamed_append] at named
    exact body.properSymbols named.1
      (found_note_eq_nil.mp (found_note_eq_nil.mp clean).2).2 proper
  | .block statements, named, clean, proper => statements.properSymbols named clean proper
  | .returnsUnit, _, _, proper => proper
  | .returns value, _, _, proper | .print value, _, _, proper
  | .expression value, _, _, proper => by
    obtain ⟨rfl, rfl⟩ := bindExpression_eq value
    exact proper
  | .breakLoop, _, _, proper | .continueLoop, _, _, proper => by
    obtain ⟨_, same⟩ := checkJump_note _ _ _
    rw [same]
    exact proper

theorem BindsList.properSymbols {statements b b' bound} :
    BindsList statements b bound b' →
      AllNamed (identifiersOfList statements) → b'.found = [] → ProperSymbols b.symbols →
        ProperSymbols b'.symbols
  | .nil, _, _, proper => proper
  | .cons first others, named, clean, proper => by
    rw [identifiersOfList, allNamed_append] at named
    exact others.properSymbols named.2 clean
      (first.properSymbols named.1 (others.grows.clean clean) proper)

end

theorem Binder.Grows.within (h : Grows b b') : b.symbols.Within b'.symbols :=
  SymbolTable.within_of_append h.symbols

variable {table : SymbolTable}

mutual

/-- A statement in which nothing was found is well typed against every table that has its
symbols, as part of a body whose returns are in order. -/
theorem Statement.Binds.wellTyped {s : Statement} {b b' s'} :
    s.Binds b s' b' → AllNamed s.identifiers → b'.found = [] → ProperSymbols b.symbols →
      b'.symbols.Within table → ∀ {result : Ty}, result.Proper →
      (s'.checkPaths result).2 = [] → WellTyped table result s'
  | .function redeclared parameters typed body, named, clean, proper, within, _, _, _ => by
    simp only [Statement.identifiers, allNamed_cons, allNamed_append] at named
    obtain ⟨_, parameterNames, resultName, bodyNames⟩ := named
    obtain ⟨inner, returns, ok⟩ := leaveFunction_clean clean
    have before := (found_enterFunction ..).symm.trans (body.grows.clean inner)
    obtain ⟨rfl, returned, entered⟩ := proper_enterFunction redeclared parameters typed before
      (allNamed_append.mpr ⟨parameterNames, resultName⟩) proper
    obtain ⟨listed, ending⟩ := Bound.checkBody_eq returns ok
    rw [symbols_leaveFunction] at within
    have statements := body.wellTyped bodyNames inner entered within returned listed
    have later := body.grows.within.trans within
    rw [symbols_enterFunction, declareFunction, declare_symbols] at later
    have known := fun p mem => (later.of_alloc p.1 _ (get?_bindParameters parameters p mem))
    refine .function (later _ _ (by rw [Binder.alloc, SymbolTable.get?_alloc, if_pos rfl])) ?_ ?_
      statements ?_
    · simp only [List.map_map]
      refine List.map_congr_left fun p mem => ?_
      simp [known p mem]
    · intro id mem
      obtain ⟨p, inside, rfl⟩ := List.mem_map.mp mem
      exact ⟨_, known p inside, rfl⟩
    · rcases ending with ⟨ends, valid⟩ | ⟨runs, noValue, inserted⟩
      · exact .inl ⟨ends, by rw [valid]; rfl⟩
      · exact .inr ⟨runs, returned.eq_unit noValue, by rw [inserted]; rfl⟩
  | .declare redeclared typed value, named, clean, proper, within, _, _, _ => by
    simp only [Statement.identifiers, allNamed_cons, allNamed_append] at named
    obtain ⟨fits, before⟩ := found_note_eq_nil.mp clean
    rw [declare_found] at before
    obtain ⟨rfl, valueTyped, _⟩ := proper_declare redeclared typed value before
      (allNamed_append.mpr named.2) proper
    change SymbolTable.Within (Binder.declare _ _ _ _).symbols table at within
    rw [declare_symbols] at within
    exact .declare (within _ _ (by rw [Binder.alloc, SymbolTable.get?_alloc, if_pos rfl])) rfl
      (valueTyped.mono within.of_alloc) (checkAssignable_eq_nil fits)
  | .ifThen condition yes, named, clean, proper, within, _, sound, returns => by
    rw [Statement.identifiers, allNamed_append] at named
    obtain ⟨boolean, inner⟩ := found_note_eq_nil.mp clean
    obtain ⟨rfl, tested⟩ := bindExpression_hasType condition named.1 (yes.grows.clean inner) proper
    exact .ifThen ((checkCondition_eq_nil proper tested boolean).mono
        (yes.grows.within.trans within))
      (yes.wellTyped named.2 inner proper within sound returns)
  | .ifElse condition yes no, named, clean, proper, within, _, sound, returns => by
    rw [Statement.identifiers, allNamed_append, allNamed_append] at named
    obtain ⟨boolean, second⟩ := found_note_eq_nil.mp clean
    have first := no.grows.clean second
    obtain ⟨rfl, tested⟩ := bindExpression_hasType condition named.1 (yes.grows.clean first) proper
    have middle := yes.properSymbols named.2.1 first proper
    obtain ⟨one, two⟩ := List.append_eq_nil_iff.mp returns
    have later := no.grows.within.trans within
    exact .ifElse ((checkCondition_eq_nil proper tested boolean).mono
        (yes.grows.within.trans later))
      (yes.wellTyped named.2.1 first proper later sound one)
      (no.wellTyped named.2.2 second middle within sound two)
  | .whileLoop condition body, named, clean, proper, within, _, sound, returns => by
    rw [Statement.identifiers, allNamed_append] at named
    obtain ⟨boolean, inner⟩ := found_note_eq_nil.mp clean
    obtain ⟨rfl, tested⟩ := bindExpression_hasType condition named.1 (body.grows.clean inner) proper
    exact .whileLoop ((checkCondition_eq_nil proper tested boolean).mono
        (body.grows.within.trans within))
      (body.wellTyped named.2 inner proper within sound returns)
  | .doWhile body condition, named, clean, proper, within, _, sound, returns => by
    rw [Statement.identifiers, allNamed_append] at named
    obtain ⟨boolean, test⟩ := found_note_eq_nil.mp clean
    obtain ⟨_, noted⟩ := bindExpression_eq condition
    have inner : Binder.found _ = [] := (found_note_eq_nil.mp (noted ▸ test)).2
    have middle := body.properSymbols named.1 inner proper
    obtain ⟨rfl, tested⟩ := bindExpression_hasType condition named.2 test middle
    exact .doWhile (body.wellTyped named.1 inner proper within sound returns)
      ((checkCondition_eq_nil middle tested boolean).mono within)
  | .block statements, named, clean, proper, within, _, sound, returns =>
    .block (statements.wellTyped named clean proper within sound returns)
  | .returnsUnit, _, _, _, _, result, sound, returns => by
    have unit : result = .unit := by
      refine sound.eq_unit ?_
      rw [Bound.Statement.checkPaths, Bound.checkReturn] at returns
      split at returns
      · assumption
      · cases returns
    subst unit
    exact .returnsUnit
  | .returns value, named, clean, proper, within, _, _, returns => by
    obtain ⟨rfl, typed⟩ := bindExpression_hasType value named clean proper
    refine .returns (typed.mono within) ?_
    rw [Bound.Statement.checkPaths, Bound.checkReturn] at returns
    split at returns
    · assumption
    · cases returns
  | .breakLoop, _, _, _, _, _, _, _ => .breakLoop
  | .continueLoop, _, _, _, _, _, _, _ => .continueLoop
  | .print value, named, clean, proper, within, _, _, _ => by
    obtain ⟨rfl, typed⟩ := bindExpression_hasType value named clean proper
    exact .print (typed.mono within)
  | .expression value, named, clean, proper, within, _, _, _ => by
    obtain ⟨rfl, typed⟩ := bindExpression_hasType value named clean proper
    exact .expression (typed.mono within)

theorem BindsList.wellTyped {statements b b' bound} :
    BindsList statements b bound b' → AllNamed (identifiersOfList statements) →
    b'.found = [] → ProperSymbols b.symbols → b'.symbols.Within table →
    ∀ {result : Ty} {behind : Bool}, result.Proper →
    (Bound.checkPathsOfList result behind [] bound).2 = [] → WellTypedList table result bound
  | .nil, _, _, _, _, _, _, _, _ => .nil
  | .cons first others, named, clean, proper, within, _, _, sound, returns => by
    rw [identifiersOfList, allNamed_append] at named
    obtain ⟨_, one, two⟩ := Bound.checkPathsOfList_cons_eq_nil returns
    have before := others.grows.clean clean
    exact .cons
      (first.wellTyped named.1 before proper (others.grows.within.trans within) sound one)
      (others.wellTyped named.2 clean (first.properSymbols named.1 before proper) within sound two)

end

/-! ### Files -/

theorem allNamed_of_ne {identifiers : List Identifier} (named : ∀ i ∈ identifiers, i.name ≠ "") :
    AllNamed identifiers := fun i mem => by simpa [Identifier.isMissing] using named i mem

/-- A file without diagnostics or missing names is well typed. -/
theorem SourceFile.wellTyped_of_allNamed {file : SourceFile} (allNamed : AllNamed file.identifiers)
    (clean : file.bind.2 = []) : file.bind.1.WellTyped := by
  obtain ⟨b, run, symbols, found, returns⟩ := SourceFile.binds_of_clean clean
  have empty : ProperSymbols Binder.new.symbols := fun _ mem => nomatch mem
  have proper := run.properSymbols allNamed found empty
  rw [← symbols] at proper
  have within : b.symbols.Within file.bind.1.symbols := by
    rw [symbols]
    exact fun _ _ known => known
  have unit : Ty.unit.Proper := .plain rfl rfl
  have statements := run.wellTyped allNamed found empty within unit returns
  exact ⟨proper, statements.proper_nodes proper, statements⟩

/-- A file with all its names that binds without diagnostics is well typed. -/
theorem SourceFile.wellTyped_of_clean {file : SourceFile}
    (named : ∀ i ∈ file.identifiers, i.name ≠ "") (clean : file.bind.2 = []) :
    file.bind.1.WellTyped :=
  wellTyped_of_allNamed (allNamed_of_ne named) clean

open Unplaced in
/-- A function and a loop that calls it:
`fun next(n: Int): Int { return n + 1 } var i = 0 while (i < 3) { i = next(i) }`. -/
def countingFile : SourceFile :=
  source "counting" [
    function "next" [("n", "Int")] "Int" [give (binary .plus (use "n") (int 1))],
    var "i" (int 0),
    whileLoop (binary .less (use "i") (int 3)) [assign "i" (call "next" [use "i"])]]

/-- The bound program. Parameters have their symbols before the function. -/
def countingProgram : Bound.Program where
  statements :=
    let i : Bound.Expression := .reference 2 .int default
    [.function 1 [0] [.returns (some (.binary .addition (.reference 0 .int default)
      (.literal (.int 1) default) .int default)) default] false default default,
    .declare 2 (.literal (.int 0) default) default,
    .whileLoop (.binary .lessThan i (.literal (.int 3) default) .boolean default)
      (.block [.expression (.assignment 2 (.call (.reference 1 (.function [.int] .int) default) [i]
        .int default) .int default) default] default) default]
  symbols := ⟨#[⟨"n", .int, .parameter⟩, ⟨"next", .function [.int] .int, .function [0]⟩,
    ⟨"i", .int, .binding false⟩]⟩

theorem countingFile_wellTyped :
    (∀ i ∈ countingFile.identifiers, i.name ≠ "") ∧ countingFile.bind = (countingProgram, []) ∧
      countingProgram.WellTyped := by
  have named : ∀ i ∈ countingFile.identifiers, i.name ≠ "" := by decide +kernel
  have bound : countingFile.bind = (countingProgram, []) := by rfl
  have wellTyped := SourceFile.wellTyped_of_clean named (congrArg Prod.snd bound)
  rw [bound] at wellTyped
  exact ⟨named, bound, wellTyped⟩

end Bindery
