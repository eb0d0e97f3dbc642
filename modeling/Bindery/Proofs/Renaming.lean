import Mathlib.Data.List.Forall2
import Bindery.Proofs.Limits

/-!
Names do not matter.

A `Renaming` gives every name another one: different names get different ones, and a missing
name stays missing. A file and the file with its names changed are bound side by side, and the
two binders stay `Renamed`: a name stands for the same symbol in one as the new name does in the
other, the symbols differ in their names only, and the findings are alike. What is compared are the
names of a `Comparison`, which have to be those of the file, and of a finding what its view shows.
So the same problems are reported at the same places. The bound trees are equal, so all that is left
of the names when code is written is the symbol table, which is read only to complain about a symbol
without a place to live. A file without diagnostics has no such symbol.
-/

namespace Bindery

open Binder

/-! ### Files with other names -/

/-- A change of names that keeps different names apart and a missing name missing. -/
structure Renaming where
  apply : String → String
  injective : Function.Injective apply
  missing : apply "" = ""

instance : CoeFun Renaming fun _ => String → String := ⟨Renaming.apply⟩

namespace Renaming

/-- Every name stays. -/
def refl : Renaming := ⟨id, Function.injective_id, rfl⟩

variable (r : Renaming)

variable {a : String}

theorem apply_eq_iff {b : String} : r a = r b ↔ a = b := r.injective.eq_iff

theorem apply_eq_empty_iff : r a = "" ↔ a = "" := by
  rw [← r.missing, r.apply_eq_iff, r.missing]

theorem contains_map (names : List String) (name : String) :
    (names.map r).contains (r name) = names.contains name := by
  simp [r.apply_eq_iff]

end Renaming

def Identifier.rename (r : Renaming) (i : Identifier) : Identifier := { i with name := r i.name }

def Parameter.rename (r : Renaming) (p : Parameter) : Parameter :=
  { p with name := p.name.rename r }

mutual

def Expression.rename (r : Renaming) : Expression → Expression
  | .literal value span => .literal value span
  | .reference name => .reference (name.rename r)
  | .assignment target value span => .assignment (target.rename r) (value.rename r) span
  | .binary left operator operatorSpan right span =>
    .binary (left.rename r) operator operatorSpan (right.rename r) span
  | .unary operator operatorSpan operand span =>
    .unary operator operatorSpan (operand.rename r) span
  | .parenthesized inner span => .parenthesized (inner.rename r) span
  | .call target arguments argumentsSpan span =>
    .call (target.rename r) (renameArguments r arguments) argumentsSpan span
  | .ternary condition yes no span =>
    .ternary (condition.rename r) (yes.rename r) (no.rename r) span

def renameArguments (r : Renaming) : List Expression → List Expression
  | [] => []
  | e :: rest => e.rename r :: renameArguments r rest

end

mutual

/-- The statement with every name it declares or refers to changed; the names of types stay. -/
def Statement.rename (r : Renaming) : Statement → Statement
  | .function name parameters result body bodySpan span =>
    .function (name.rename r) (parameters.map (·.rename r)) result (renameList r body) bodySpan
      span
  | .declare name typeName readOnly value span =>
    .declare (name.rename r) typeName readOnly (value.rename r) span
  | .ifThen condition yes span => .ifThen (condition.rename r) (yes.rename r) span
  | .ifElse condition yes no span =>
    .ifElse (condition.rename r) (yes.rename r) (no.rename r) span
  | .whileLoop condition body span => .whileLoop (condition.rename r) (body.rename r) span
  | .doWhile body condition span => .doWhile (body.rename r) (condition.rename r) span
  | .block statements span => .block (renameList r statements) span
  | .returns none span => .returns none span
  | .returns (some value) span => .returns (some (value.rename r)) span
  | .breakLoop span => .breakLoop span
  | .continueLoop span => .continueLoop span
  | .print value span => .print (value.rename r) span
  | .expression value span => .expression (value.rename r) span

def renameList (r : Renaming) : List Statement → List Statement
  | [] => []
  | s :: rest => s.rename r :: renameList r rest

end

def SourceFile.rename (r : Renaming) (file : SourceFile) : SourceFile :=
  { file with statements := renameList r file.statements }

def Symbol.rename (r : Renaming) (s : Symbol) : Symbol := { s with name := r s.name }

def renameBound (r : Renaming) (p : SymbolId × String × Ty) : SymbolId × String × Ty :=
  (p.1, r p.2.1, p.2.2)

theorem map_fst_renameBound (r : Renaming) (params : List (SymbolId × String × Ty)) :
    (params.map (renameBound r)).map (·.1) = params.map (·.1) :=
  List.map_map

theorem map_ty_renameBound (r : Renaming) (params : List (SymbolId × String × Ty)) :
    (params.map (renameBound r)).map (·.2.2) = params.map (·.2.2) :=
  List.map_map

mutual

/-- Every name that a statement declares, gives to a parameter or refers to. The names of types
are not among them. -/
def Statement.vocabulary : Statement → List String
  | .function name parameters _ body .. =>
    name.name :: (parameters.map (·.name.name) ++ vocabularyOfList body)
  | .declare name _ _ value _ => name.name :: value.identifiers.map (·.name)
  | .ifThen condition yes _ => condition.identifiers.map (·.name) ++ yes.vocabulary
  | .ifElse condition yes no _ =>
    condition.identifiers.map (·.name) ++ (yes.vocabulary ++ no.vocabulary)
  | .whileLoop condition body _ => condition.identifiers.map (·.name) ++ body.vocabulary
  | .doWhile body condition _ => body.vocabulary ++ condition.identifiers.map (·.name)
  | .block statements _ => vocabularyOfList statements
  | .returns none _ => []
  | .returns (some value) _ => value.identifiers.map (·.name)
  | .breakLoop _ => []
  | .continueLoop _ => []
  | .print value _ => value.identifiers.map (·.name)
  | .expression value _ => value.identifiers.map (·.name)

def vocabularyOfList : List Statement → List String
  | [] => []
  | s :: rest => s.vocabulary ++ vocabularyOfList rest

end

/-! ### What is reported where -/

/-- What is reported and where, without the words of the message. -/
def Diagnostic.place (d : Diagnostic) : Nat × Option Span := (d.code, d.span)

def Finding.place? : Finding → Option (Nat × Option Span)
  | .problem d => some d.place
  | .dangling _ => none

/-- How two runs of the binder are compared: under which names the second one goes on, which names
count, and what is seen of a finding. The name that a finding is about is not. -/
structure Comparison (γ : Type) where
  rename : Renaming
  names : Set String
  view : Finding → γ
  blind (span : Span) (problem : Problem) (name : String) :
    view (.on span problem [rename name]) = view (.on span problem [name])

variable {γ : Type}

/-- The findings look the same. -/
def Alike (k : Comparison γ) (first second : List Finding) : Prop :=
  first.map k.view = second.map k.view

namespace Alike

variable {k : Comparison γ} {first second first' second' : List Finding}

theorem refl (findings : List Finding) : Alike k findings findings := rfl

theorem append (left : Alike k first second) (right : Alike k first' second') :
    Alike k (first ++ first') (second ++ second') := by
  unfold Alike at *
  rw [List.map_append, List.map_append, left, right]

theorem append_same (left : Alike k first second) (findings : List Finding) :
    Alike k (first ++ findings) (second ++ findings) :=
  left.append (refl findings)

theorem reverse (h : Alike k first second) : Alike k first.reverse second.reverse := by
  unfold Alike at *
  rw [List.map_reverse, List.map_reverse, h]

/-- The name in a message does not count. -/
theorem on (span : Span) (problem : Problem) (name : String) :
    Alike k [.on span problem [k.rename name]] [.on span problem [name]] :=
  congrArg (fun seen => [seen]) (k.blind span problem name)

end Alike

theorem Binder.place_diagnostics (b : Binder) :
    b.diagnostics.map Diagnostic.place = (b.found.reverse.map Finding.place?).filterMap id := by
  unfold diagnostics
  rw [List.map_filterMap, List.filterMap_map]
  congr 1
  funext f
  cases f with
  | problem => rfl
  | dangling => rfl

/-! ### Scopes and symbols side by side -/

section Renamed

variable {r : Renaming} {k : Comparison γ}

theorem Identifier.isMissing_rename (i : Identifier) : (i.rename r).isMissing = i.isMissing := by
  unfold isMissing rename
  rw [Bool.eq_iff_iff]
  simp [r.apply_eq_empty_iff]

/-- One scope declares under the new names what the other declares, as far as the names count. -/
def Scope.Renamed (k : Comparison γ) (s s' : Scope) : Prop :=
  ∀ name ∈ k.names, s'[k.rename name]? = s[name]?

namespace Scope.Renamed

variable {s s' : Scope}

theorem empty : Scope.Renamed k ∅ ∅ := fun _ _ => by simp

theorem insert (h : Scope.Renamed k s s') (name : String) (symbol : SymbolId) :
    Scope.Renamed k (s.insert name symbol) (s'.insert (k.rename name) symbol) := by
  intro other mem
  rw [Std.TreeMap.getElem?_insert, Std.TreeMap.getElem?_insert, h other mem]
  simp [k.rename.apply_eq_iff]

theorem contains (h : Scope.Renamed k s s') {name : String} (mem : name ∈ k.names) :
    s'.contains (k.rename name) = s.contains name := by
  rw [Std.TreeMap.contains_eq_isSome_getElem?, Std.TreeMap.contains_eq_isSome_getElem?, h name mem]

end Scope.Renamed

/-- The same scopes are open, with the new names in place of the old ones. -/
structure ScopeChain.Renamed (k : Comparison γ) (c c' : ScopeChain) : Prop where
  current : Scope.Renamed k c.current c'.current
  enclosing : List.Forall₂ (Scope.Renamed k) c.enclosing c'.enclosing

namespace ScopeChain.Renamed

variable {c c' : ScopeChain}

theorem push (h : c.Renamed k c') : c.push.Renamed k c'.push :=
  ⟨.empty, .cons h.current h.enclosing⟩

theorem pop (h : c.Renamed k c') : c.pop.Renamed k c'.pop := by
  obtain ⟨current, enclosing⟩ := c
  obtain ⟨current', enclosing'⟩ := c'
  cases h.enclosing with
  | nil => exact ⟨h.current, .nil⟩
  | cons outer others => exact ⟨outer, others⟩

theorem put (h : c.Renamed k c') (name : String) (symbol : SymbolId) :
    (c.put name symbol).Renamed k (c'.put (k.rename name) symbol) :=
  ⟨h.current.insert name symbol, h.enclosing⟩

theorem declares (h : c.Renamed k c') {name : String} (mem : name ∈ k.names) :
    c'.declares (k.rename name) = c.declares name :=
  h.current.contains mem

theorem get? (h : c.Renamed k c') {name : String} (mem : name ∈ k.names) :
    c'.get? (k.rename name) = c.get? name := by
  have all : List.Forall₂ (Scope.Renamed k) c.toList c'.toList := .cons h.current h.enclosing
  unfold ScopeChain.get?
  generalize c.toList = scopes at all
  generalize c'.toList = scopes' at all
  induction all with
  | nil => rfl
  | cons first _ ih => rw [List.findSome?_cons, List.findSome?_cons, first name mem, ih]

end ScopeChain.Renamed

def SymbolTable.Renamed (r : Renaming) (t t' : SymbolTable) : Prop :=
  t'.toList = t.toList.map (·.rename r)

namespace SymbolTable.Renamed

variable {t t' : SymbolTable}

theorem size (h : t.Renamed r t') : t'.size = t.size := by
  rw [← length_toList, ← length_toList, h, List.length_map]

theorem get? (h : t.Renamed r t') (id : SymbolId) : t'.get? id = (t.get? id).map (·.rename r) := by
  unfold SymbolTable.get?
  rw [← Array.getElem?_toList, ← Array.getElem?_toList, ← List.getElem?_map]
  exact congrArg (·[id]?) h

theorem alloc (h : t.Renamed r t') (s : Symbol) :
    (t.alloc s).Renamed r (t'.alloc (s.rename r)) := by
  unfold Renamed at *
  rw [toList_alloc, toList_alloc, h, List.map_append, List.map_singleton]

end SymbolTable.Renamed

/-- Expressions are bound against the same symbols under the new names. -/
structure Environment.Renamed (k : Comparison γ) (env env' : Environment) : Prop where
  scopes : env.scopes.Renamed k env'.scopes
  symbols : env.symbols.Renamed k.rename env'.symbols

/-- The names of all identifiers count. -/
def Within (k : Comparison γ) (identifiers : List Identifier) : Prop :=
  ∀ i ∈ identifiers, i.name ∈ k.names

namespace Within

variable {first second : List Identifier}

theorem left (h : Within k (first ++ second)) : Within k first :=
  fun i mem => h i (List.mem_append_left _ mem)

theorem right (h : Within k (first ++ second)) : Within k second :=
  fun i mem => h i (List.mem_append_right _ mem)

end Within

/-! ### Expressions -/

variable {env env' : Environment}

/-- A reference is bound to the same symbol under its new name. -/
theorem bindReference_rename (h : env.Renamed k env') {name : Identifier}
    (mem : name.name ∈ k.names) :
    (bindReference env' (name.rename k.rename)).1 = (bindReference env name).1 ∧
      Alike k (bindReference env' (name.rename k.rename)).2 (bindReference env name).2 := by
  unfold bindReference
  rw [name.isMissing_rename]
  split
  · exact ⟨rfl, .refl _⟩
  · have there : env'.scopes.get? (name.rename k.rename).name = env.scopes.get? name.name :=
      h.scopes.get? mem
    rw [there]
    cases env.scopes.get? name.name with
    | none => exact ⟨rfl, .on ..⟩
    | some id =>
      simp only [h.symbols.get? id]
      cases env.symbols.get? id with
      | none => exact ⟨rfl, .refl _⟩
      | some => exact ⟨rfl, .refl _⟩

theorem assignable?_rename (h : env.Renamed k env') (target : Bound.Expression) :
    assignable? env'.symbols target =
      (assignable? env.symbols target).map fun p => (p.1, p.2.rename k.rename) := by
  unfold assignable?
  split
  · rename_i id ty span
    rw [h.symbols.get? id]
    cases env.symbols.get? id with
    | none => rfl
    | some symbol =>
      change (if symbol.isVariable then _ else _) = _
      cases stored : symbol.isVariable with
      | true => simp [stored]
      | false => simp [stored]
  · rfl

mutual

/-- An expression is bound to the same under the new names. -/
theorem Expression.bind_rename (h : env.Renamed k env') : ∀ e : Expression,
    Within k e.identifiers → ((e.rename k.rename).bind env').1 = (e.bind env).1 ∧
      Alike k ((e.rename k.rename).bind env').2 (e.bind env).2
  | .literal .., _ => by
    rw [Expression.rename, Expression.bind, Expression.bind]
    exact ⟨rfl, .refl _⟩
  | .reference name, inside => by
    rw [Expression.rename, Expression.bind, Expression.bind]
    exact bindReference_rename h (inside name (List.mem_singleton_self name))
  | .assignment target value _, inside => by
    obtain ⟨sameTarget, first⟩ := target.bind_rename h inside.left
    obtain ⟨sameValue, second⟩ := value.bind_rename h inside.right
    rw [Expression.rename, Expression.bind, Expression.bind]
    simp only [sameTarget, sameValue, assignable?_rename h]
    cases assignable? env.symbols (target.bind env).1 with
    | none => exact ⟨rfl, (first.append second).append_same _⟩
    | some stored =>
      refine ⟨rfl, ((first.append ?_).append second).append_same _⟩
      change Alike k (if stored.2.isReadOnly then _ else _) _
      split
      · exact .on ..
      · exact .refl _
  | .binary left _ _ right _, inside => by
    obtain ⟨sameLeft, first⟩ := left.bind_rename h inside.left
    obtain ⟨sameRight, second⟩ := right.bind_rename h inside.right
    rw [Expression.rename, Expression.bind, Expression.bind]
    simp only [sameLeft, sameRight]
    split
    · exact ⟨rfl, first.append second⟩
    · split
      · exact ⟨rfl, first.append second⟩
      · exact ⟨rfl, (first.append second).append_same _⟩
  | .unary _ _ operand _, inside => by
    obtain ⟨same, first⟩ := operand.bind_rename h inside
    rw [Expression.rename, Expression.bind, Expression.bind]
    simp only [same]
    split
    · exact ⟨rfl, first⟩
    · split
      · exact ⟨rfl, first⟩
      · exact ⟨rfl, first.append_same _⟩
  | .parenthesized inner _, inside => by
    obtain ⟨same, first⟩ := inner.bind_rename h inside
    rw [Expression.rename, Expression.bind, Expression.bind]
    simp only [same, true_and]
    exact first
  | .call target arguments .., inside => by
    obtain ⟨sameTarget, first⟩ := target.bind_rename h inside.left
    obtain ⟨sameArguments, second⟩ := bindArguments_rename h arguments inside.right
    rw [Expression.rename, Expression.bind, Expression.bind]
    simp only [sameTarget, sameArguments]
    split
    · exact ⟨rfl, ((first.append second).append_same _).append_same _⟩
    · exact ⟨rfl, (first.append second).append_same _⟩
  | .ternary condition yes no _, inside => by
    obtain ⟨sameCondition, first⟩ := condition.bind_rename h inside.left
    obtain ⟨sameYes, second⟩ := yes.bind_rename h inside.right.left
    obtain ⟨sameNo, third⟩ := no.bind_rename h inside.right.right
    rw [Expression.rename, Expression.bind, Expression.bind]
    simp only [sameCondition, sameYes, sameNo, true_and]
    exact ((first.append second).append third).append_same _

/-- Arguments are bound to the same trees under new names. -/
theorem bindArguments_rename (h : env.Renamed k env') : ∀ arguments : List Expression,
    Within k (identifiersOfArguments arguments) →
    (bindArguments env' (renameArguments k.rename arguments)).1 = (bindArguments env arguments).1 ∧
      Alike k (bindArguments env' (renameArguments k.rename arguments)).2
        (bindArguments env arguments).2
  | [], _ => by
    rw [renameArguments, bindArguments, bindArguments]
    exact ⟨rfl, .refl _⟩
  | e :: rest, inside => by
    obtain ⟨sameFirst, first⟩ := e.bind_rename h inside.left
    obtain ⟨sameOthers, others⟩ := bindArguments_rename h rest inside.right
    rw [renameArguments, bindArguments, bindArguments]
    simp only [sameFirst, sameOthers, true_and]
    exact first.append others

end

/-! ### Binders side by side -/

/-- The state of binding the same under the new names. -/
structure Binder.Renamed (k : Comparison γ) (b c : Binder) : Prop where
  scopes : b.scopes.Renamed k c.scopes
  symbols : b.symbols.Renamed k.rename c.symbols
  jumps : c.jumps = b.jumps
  found : Alike k c.found b.found

/-- Two steps with the same result, which lead to states that are the same under the new
names. -/
structure Abreast {α : Type} (k : Comparison γ) (x y : α × Binder) : Prop where
  same : y.1 = x.1
  renamed : x.2.Renamed k y.2

variable {b' : Binder} {parameters : List Parameter} {params : List (SymbolId × String × Ty)}

theorem Abreast.follow {α : Type} {x y : α × Binder} {a : α} (h : Abreast k x y)
    (run : x = (a, b')) : ∃ c', y = (a, c') ∧ b'.Renamed k c' := by
  subst run
  exact ⟨y.2, Prod.ext h.same rfl, h.renamed⟩

namespace Binder.Renamed

variable {b c : Binder}

theorem new : Binder.new.Renamed k Binder.new :=
  ⟨⟨.empty, .nil⟩, rfl, rfl, .refl _⟩

theorem environment (h : b.Renamed k c) : b.environment.Renamed k c.environment :=
  ⟨h.scopes, h.symbols⟩

/-- Findings that are alike keep binders `Renamed`. -/
theorem noteAlike (h : b.Renamed k c) {first second : List Finding} (alike : Alike k second first) :
    (b.note first).Renamed k (c.note second) := by
  refine { h with found := ?_ }
  rw [found_note, found_note]
  exact alike.reverse.append h.found

theorem note (h : b.Renamed k c) (findings : List Finding) :
    (b.note findings).Renamed k (c.note findings) :=
  h.noteAlike (.refl findings)

theorem report (h : b.Renamed k c) (span : Span) (problem : Problem) (arguments : List String) :
    (b.report span problem arguments).Renamed k (c.report span problem arguments) :=
  h.note _

theorem reportName (h : b.Renamed k c) (span : Span) (problem : Problem) (name : String) :
    (b.report span problem [name]).Renamed k (c.report span problem [k.rename name]) :=
  h.noteAlike (.on ..)

theorem alloc (h : b.Renamed k c) (symbol : Symbol) :
    (b.alloc symbol).Renamed k (c.alloc (symbol.rename k.rename)) :=
  { h with symbols := h.symbols.alloc symbol }

theorem pushScope (h : b.Renamed k c) : b.pushScope.Renamed k c.pushScope :=
  { h with scopes := h.scopes.push }

theorem popScope (h : b.Renamed k c) : b.popScope.Renamed k c.popScope :=
  { h with scopes := h.scopes.pop }

theorem pushJump (h : b.Renamed k c) (context : JumpContext) :
    (b.pushJump context).Renamed k (c.pushJump context) :=
  { h with jumps := congrArg (context :: ·) h.jumps }

theorem popJump (h : b.Renamed k c) : b.popJump.Renamed k c.popJump :=
  { h with jumps := congrArg List.tail h.jumps }

theorem put (h : b.Renamed k c) (name : String) (symbol : SymbolId) :
    { b with scopes := b.scopes.put name symbol : Binder }.Renamed k
      { c with scopes := c.scopes.put (k.rename name) symbol } :=
  { h with scopes := h.scopes.put name symbol }

theorem declare (h : b.Renamed k c) (taken : Bool) (name : Identifier) (symbol : SymbolId) :
    (b.declare taken name symbol).Renamed k (c.declare taken (name.rename k.rename) symbol) := by
  unfold Binder.declare
  rw [name.isMissing_rename]
  split
  · exact h
  · exact h.put name.name symbol

theorem checkRedeclared (h : b.Renamed k c) {name : Identifier} (mem : name.name ∈ k.names) :
    Abreast k (b.checkRedeclared name) (c.checkRedeclared (name.rename k.rename)) := by
  have there : c.scopes.declares (name.rename k.rename).name = b.scopes.declares name.name :=
    h.scopes.declares mem
  unfold Binder.checkRedeclared
  rw [there]
  split
  · exact ⟨rfl, h.reportName ..⟩
  · exact ⟨rfl, h⟩

/-- Types keep their names. -/
theorem bindType (h : b.Renamed k c) (name : Identifier) :
    Abreast k (b.bindType name) (c.bindType name) := by
  unfold Binder.bindType
  split
  · exact ⟨rfl, h⟩
  · split
    · exact ⟨rfl, h⟩
    · exact ⟨rfl, h.report ..⟩

theorem bindType? (h : b.Renamed k c) (name : Option Identifier) :
    Abreast k (b.bindType? name) (c.bindType? name) := by
  cases name with
  | none => exact ⟨rfl, h⟩
  | some name => exact ⟨congrArg some (h.bindType name).same, (h.bindType name).renamed⟩

theorem bindExpression (h : b.Renamed k c) {e : Expression} (inside : Within k e.identifiers) :
    Abreast k (b.bindExpression e) (c.bindExpression (e.rename k.rename)) := by
  obtain ⟨same, alike⟩ := e.bind_rename h.environment inside
  rw [bindExpression_eq_bind, bindExpression_eq_bind]
  exact ⟨same, h.noteAlike alike⟩

/-- The parameters get the same symbols under the new names. -/
theorem bindParameters (h : b.Renamed k c) (seen : List String) (parameters : List Parameter) :
    (c.bindParameters (seen.map k.rename) (parameters.map (·.rename k.rename))).1 =
        (b.bindParameters seen parameters).1.map (renameBound k.rename) ∧
      (b.bindParameters seen parameters).2.Renamed k
        (c.bindParameters (seen.map k.rename) (parameters.map (·.rename k.rename))).2 := by
  induction parameters generalizing b c seen with
  | nil => exact ⟨rfl, h⟩
  | cons p _ ih =>
    have missing : (p.rename k.rename).name.isMissing = p.name.isMissing := p.name.isMissing_rename
    rw [List.map_cons, Binder.bindParameters, Binder.bindParameters, missing]
    split
    · exact ih h seen
    · obtain ⟨sameType, typed⟩ := h.bindType p.typeName
      have again : (seen.map k.rename).contains (p.rename k.rename).name.name =
          seen.contains p.name.name :=
        k.rename.contains_map seen p.name.name
      have reported : (if seen.contains p.name.name then
            (b.bindType p.typeName).2.report p.span .duplicateParameter [p.name.name]
          else (b.bindType p.typeName).2).Renamed k
          (if seen.contains p.name.name then
            (c.bindType p.typeName).2.report p.span .duplicateParameter [k.rename p.name.name]
          else (c.bindType p.typeName).2) := by
        split
        · exact typed.reportName ..
        · exact typed
      obtain ⟨others, renamed⟩ := ih
        (reported.alloc ⟨p.name.name, (b.bindType p.typeName).1, .parameter⟩)
        (p.name.name :: seen)
      have sameType' : (c.bindType (p.rename k.rename).typeName).1 = (b.bindType p.typeName).1 :=
        sameType
      simp only [again, sameType']
      refine ⟨?_, renamed⟩
      rw [List.map_cons, ← others, renameBound, ← reported.symbols.size]
      rfl

theorem followParameters (h : b.Renamed k c) (run : b.bindParameters [] parameters = (params, b')) :
    ∃ c', c.bindParameters [] (parameters.map (·.rename k.rename)) =
      (params.map (renameBound k.rename), c') ∧ b'.Renamed k c' := by
  obtain ⟨same, renamed⟩ := h.bindParameters [] parameters
  rw [run] at same renamed
  exact ⟨_, Prod.ext same rfl, renamed⟩

/-- The parameters are declared under the new names. -/
theorem declareParameters (h : b.Renamed k c) {params : List (SymbolId × String × Ty)}
    (inside : ∀ p ∈ params, p.2.1 ∈ k.names) :
    (b.declareParameters params).Renamed k
      (c.declareParameters (params.map (renameBound k.rename))) := by
  induction params generalizing b c with
  | nil => exact h
  | cons p _ ih =>
    obtain ⟨id, name, ty⟩ := p
    rw [List.forall_mem_cons] at inside
    rw [List.map_cons, renameBound, Binder.declareParameters, Binder.declareParameters,
      h.scopes.declares inside.1]
    split
    · exact ih h inside.2
    · exact ih (h.put name id) inside.2

theorem enterFunction (h : b.Renamed k c) (taken : Bool) (name : Identifier)
    {params : List (SymbolId × String × Ty)} (result : Ty)
    (inside : ∀ p ∈ params, p.2.1 ∈ k.names) :
    (b.enterFunction taken name params result).Renamed k
      (c.enterFunction taken (name.rename k.rename) (params.map (renameBound k.rename))
        result) := by
  have declared : (b.declareFunction taken name params result).Renamed k
      (c.declareFunction taken (name.rename k.rename) (params.map (renameBound k.rename))
        result) := by
    unfold Binder.declareFunction
    rw [h.symbols.size, map_fst_renameBound, map_ty_renameBound]
    exact (h.alloc _).declare taken name _
  exact (((declared.pushJump _).pushScope).declareParameters inside).pushScope

theorem leaveFunction (h : b.Renamed k c) (result : Ty) (body : List Bound.Statement)
    (bodySpan : Span) :
    (b.leaveFunction result body bodySpan).Renamed k (c.leaveFunction result body bodySpan) := by
  have left := ((h.popScope.popScope).popJump).note
    ((Bound.checkBody result body).2.map .problem)
  unfold Binder.leaveFunction
  simp only
  split
  · exact left
  · exact left.report ..

theorem checkJump (h : b.Renamed k c) (span : Span) (keyword : String) :
    (b.checkJump span keyword).Renamed k (c.checkJump span keyword) := by
  unfold Binder.checkJump
  rw [h.jumps]
  split
  · exact h.report ..
  · split
    · exact h.report ..
    · exact h

end Binder.Renamed

/-! ### Statements -/

/-- Parameters are bound under their own names. -/
theorem Binder.mem_of_bindParameters {b : Binder} {seen : List String}
    (run : b.bindParameters seen parameters = (params, b')) :
    ∀ p ∈ params, p.2.1 ∈ parameters.map (·.name.name) := by
  intro p mem
  have name : p.2.1 ∈ parameterNames parameters :=
    bindParameters_names run ▸ List.mem_map_of_mem mem
  exact (List.mem_filter.mp name).1

theorem within_of_names {identifiers : List Identifier}
    (h : ∀ name ∈ identifiers.map (·.name), name ∈ k.names) : Within k identifiers :=
  List.forall_mem_map.mp h

mutual

/-- A statement is bound to the same under the new names. -/
theorem Statement.Binds.rename {s : Statement} {b b' c s'} :
    s.Binds b s' b' → (∀ name ∈ s.vocabulary, name ∈ k.names) → b.Renamed k c →
      ∃ c', (s.rename k.rename).Binds c s' c' ∧ b'.Renamed k c'
  | .function redeclared parameters typed body, sub, h => by
    rw [Statement.vocabulary, List.forall_mem_cons, List.forall_mem_append] at sub
    obtain ⟨named, given, inner⟩ := sub
    obtain ⟨c₁, redeclared', h₁⟩ := (h.checkRedeclared named).follow redeclared
    obtain ⟨c₂, parameters', h₂⟩ := h₁.followParameters parameters
    obtain ⟨c₃, typed', h₃⟩ := (h₂.bindType? _).follow typed
    obtain ⟨c₄, body', h₄⟩ := body.rename inner
      (h₃.enterFunction _ _ _ fun p mem => given _ (mem_of_bindParameters parameters p mem))
    refine ⟨_, ?_, h₄.leaveFunction _ _ _⟩
    rw [Statement.rename, ← h₃.symbols.size, ← map_fst_renameBound k.rename]
    exact .function redeclared' parameters' typed' body'
  | .declare redeclared typed value, sub, h => by
    rw [Statement.vocabulary, List.forall_mem_cons] at sub
    obtain ⟨c₁, redeclared', h₁⟩ := (h.checkRedeclared sub.1).follow redeclared
    obtain ⟨c₂, typed', h₂⟩ := (h₁.bindType? _).follow typed
    obtain ⟨c₃, value', h₃⟩ := (h₂.bindExpression (within_of_names sub.2)).follow value
    refine ⟨_, ?_, ((h₃.alloc _).declare _ _ _).note _⟩
    rw [Statement.rename, ← h₃.symbols.size]
    exact .declare redeclared' typed' value'
  | .ifThen condition yes, sub, h => by
    rw [Statement.vocabulary, List.forall_mem_append] at sub
    obtain ⟨c₁, condition', h₁⟩ := (h.bindExpression (within_of_names sub.1)).follow condition
    obtain ⟨c₂, yes', h₂⟩ := yes.rename sub.2 h₁
    refine ⟨_, ?_, h₂.note _⟩
    rw [Statement.rename]
    exact .ifThen condition' yes'
  | .ifElse condition yes no, sub, h => by
    rw [Statement.vocabulary, List.forall_mem_append, List.forall_mem_append] at sub
    obtain ⟨c₁, condition', h₁⟩ := (h.bindExpression (within_of_names sub.1)).follow condition
    obtain ⟨c₂, yes', h₂⟩ := yes.rename sub.2.1 h₁
    obtain ⟨c₃, no', h₃⟩ := no.rename sub.2.2 h₂
    refine ⟨_, ?_, h₃.note _⟩
    rw [Statement.rename]
    exact .ifElse condition' yes' no'
  | .whileLoop condition body, sub, h => by
    rw [Statement.vocabulary, List.forall_mem_append] at sub
    obtain ⟨c₁, condition', h₁⟩ := (h.bindExpression (within_of_names sub.1)).follow condition
    obtain ⟨c₂, body', h₂⟩ := body.rename sub.2 (h₁.pushJump _)
    refine ⟨_, ?_, h₂.popJump.note _⟩
    rw [Statement.rename]
    exact .whileLoop condition' body'
  | .doWhile body condition, sub, h => by
    rw [Statement.vocabulary, List.forall_mem_append] at sub
    obtain ⟨c₁, body', h₁⟩ := body.rename sub.1 (h.pushJump _)
    obtain ⟨c₂, condition', h₂⟩ :=
      (h₁.popJump.bindExpression (within_of_names sub.2)).follow condition
    refine ⟨_, ?_, h₂.note _⟩
    rw [Statement.rename]
    exact .doWhile body' condition'
  | .block statements, sub, h => by
    rw [Statement.vocabulary] at sub
    obtain ⟨c₁, statements', h₁⟩ := statements.rename sub h.pushScope
    refine ⟨_, ?_, h₁.popScope⟩
    rw [Statement.rename]
    exact .block statements'
  | .returnsUnit, _, h => by
    rw [Statement.rename]
    exact ⟨c, .returnsUnit, h⟩
  | .returns value, sub, h => by
    rw [Statement.vocabulary] at sub
    obtain ⟨c₁, value', h₁⟩ := (h.bindExpression (within_of_names sub)).follow value
    rw [Statement.rename]
    exact ⟨c₁, .returns value', h₁⟩
  | .breakLoop, _, h => by
    rw [Statement.rename]
    exact ⟨_, .breakLoop, h.checkJump _ _⟩
  | .continueLoop, _, h => by
    rw [Statement.rename]
    exact ⟨_, .continueLoop, h.checkJump _ _⟩
  | .print value, sub, h => by
    rw [Statement.vocabulary] at sub
    obtain ⟨c₁, value', h₁⟩ := (h.bindExpression (within_of_names sub)).follow value
    rw [Statement.rename]
    exact ⟨c₁, .print value', h₁⟩
  | .expression value, sub, h => by
    rw [Statement.vocabulary] at sub
    obtain ⟨c₁, value', h₁⟩ := (h.bindExpression (within_of_names sub)).follow value
    rw [Statement.rename]
    exact ⟨c₁, .expression value', h₁⟩

theorem BindsList.rename {statements b b' c bound} :
    BindsList statements b bound b' → (∀ name ∈ vocabularyOfList statements, name ∈ k.names) →
      b.Renamed k c →
      ∃ c', BindsList (renameList k.rename statements) c bound c' ∧ b'.Renamed k c'
  | .nil, _, h => by
    rw [renameList]
    exact ⟨c, .nil, h⟩
  | .cons first others, sub, h => by
    rw [vocabularyOfList, List.forall_mem_append] at sub
    obtain ⟨c₁, first', h₁⟩ := first.rename sub.1 h
    obtain ⟨c₂, others', h₂⟩ := others.rename sub.2 h₁
    rw [renameList]
    exact ⟨c₂, .cons first' others', h₂⟩

end

/-- Every name counts, and where something is reported, but not the words of the message. -/
def Comparison.places (r : Renaming) : Comparison (Option (Nat × Option Span)) :=
  ⟨r, Set.univ, Finding.place?, fun _ _ _ => rfl⟩

/-- A file is bound to the same statements under the new names, and the same problems are
reported at the same places. -/
theorem SourceFile.bind_rename (r : Renaming) (file : SourceFile) :
    (file.rename r).bind.1.statements = file.bind.1.statements ∧
      (file.rename r).bind.2.map Diagnostic.place = file.bind.2.map Diagnostic.place := by
  obtain ⟨bound, _, run⟩ := bindsList [] file.statements Binder.new
  generalize (bindList [] file.statements Binder.new).2 = b at run
  have new : Binder.new.Renamed (.places r) Binder.new := .new
  have all (name : String) (_ : name ∈ vocabularyOfList file.statements) :
      name ∈ (Comparison.places r).names := trivial
  obtain ⟨c, run', renamed⟩ := run.rename all new
  have here : bindList [] file.statements Binder.new = (bound, b) := run.bind_eq []
  have there : bindList [] (file.rename r).statements Binder.new = (bound, c) := run'.bind_eq []
  unfold SourceFile.bind Binder.bindFile
  simp only [here, there, place_diagnostics, true_and]
  exact congrArg (List.filterMap id) (renamed.note _).found.reverse

end Renamed

end Bindery

namespace Bindery.Emit

open Machine (EmitError)

/-! ### Code without names -/

/-- Two ways to write code come to the same, except that both may complain about a symbol
without a place to live, each under a name of its own. -/
def Agree {α : Type} (m m' : Emit α) : Prop :=
  ∀ e, m e = m' e ∨ ∃ name name',
    m e = .error (.unresolvedSymbol name) ∧ m' e = .error (.unresolvedSymbol name')

namespace Agree

variable {α β : Type}

theorem refl (m : Emit α) : Agree m m := fun _ => .inl rfl

theorem bind {m m' : Emit α} {f f' : α → Emit β} (first : Agree m m')
    (next : ∀ a, Agree (f a) (f' a)) : Agree (m >>= f) (m' >>= f') := by
  intro e
  rcases first e with same | ⟨name, name', here, there⟩
  · simp only [Bind.bind, StateT.bind, Except.bind, same]
    cases m' e with
    | error => exact .inl rfl
    | ok result => exact next result.1 result.2
  · simp only [Bind.bind, StateT.bind, Except.bind, here, there]
    exact .inr ⟨name, name', rfl, rfl⟩

/-- The same step on both sides. -/
theorem step (m : Emit α) {f f' : α → Emit β} (next : ∀ a, Agree (f a) (f' a)) :
    Agree (m >>= f) (m >>= f') :=
  (refl m).bind next

/-- The same end on both sides. -/
theorem finish {m m' : Emit α} (first : Agree m m') (f : α → Emit β) : Agree (m >>= f) (m' >>= f) :=
  first.bind fun a => refl (f a)

end Agree

/-- A symbol table is read only to complain. -/
theorem resolve_agree (symbols symbols' : SymbolTable) (s : SymbolId) :
    Agree (resolve symbols s) (resolve symbols' s) := by
  intro e
  unfold resolve
  cases e.frames.resolve s with
  | error => exact .inl rfl
  | ok found =>
    obtain ⟨slot, frames⟩ := found
    cases slot with
    | some => exact .inl rfl
    | none =>
      simp only [Bind.bind, Except.bind]
      cases e.globals.get? s with
      | some => exact .inl rfl
      | none => exact .inr ⟨_, _, rfl, rfl⟩

end Bindery.Emit

namespace Bindery.Bound

open Emit (Agree)

variable (symbols symbols' : SymbolTable)

mutual

theorem Expression.operands_agree (chain : Option BinaryOperation) : ∀ x : Expression,
    Agree (x.operands symbols chain) (x.operands symbols' chain)
  | .literal .. | .error _ => by
    rw [Expression.operands, Expression.operands]
    exact .refl _
  | .reference s .. => by
    rw [Expression.operands, Expression.operands]
    exact (Emit.resolve_agree symbols symbols' s).finish _
  | .assignment s value .. => by
    rw [Expression.operands, Expression.operands]
    exact (value.operands_agree none).bind fun _ =>
      (Emit.resolve_agree symbols symbols' s).finish _
  | .binary op left right .. => by
    rw [Expression.operands, Expression.operands]
    cases op.lowering with
    | apply =>
      exact (left.operands_agree none).bind fun _ =>
        (right.operands_agree none).finish _
    | test =>
      exact (left.operands_agree (some op)).bind fun _ =>
        (right.operands_agree (some op)).finish _
    | concat =>
      exact (right.operands_agree (some op)).bind fun _ =>
        (left.operands_agree (some op)).finish _
  | .unary _ operand .. => by
    rw [Expression.operands, Expression.operands]
    exact (operand.operands_agree none).finish _
  | .parenthesized inner _ => by
    rw [Expression.operands, Expression.operands]
    exact (inner.operands_agree none).finish _
  | .call target arguments .. => by
    rw [Expression.operands, Expression.operands]
    exact (argumentCode_agree arguments).bind fun _ =>
      (target.operands_agree none).finish _
  | .ternary condition yes no .. => by
    rw [Expression.operands, Expression.operands]
    refine (condition.operands_agree none).bind fun _ => ?_
    refine (yes.operands_agree none).bind fun _ => .step _ fun _ => ?_
    exact (no.operands_agree none).finish _

theorem argumentCode_agree : ∀ arguments : List Expression,
    Agree (argumentCode symbols arguments) (argumentCode symbols' arguments)
  | [] => by
    rw [argumentCode, argumentCode]
    exact .refl _
  | x :: rest => by
    rw [argumentCode, argumentCode]
    exact (x.operands_agree none).bind fun _ => (argumentCode_agree rest).finish _

end

/-- Code that is written does not depend on the symbol table. -/
theorem Expression.emit_agree (x : Expression) : Agree (x.emit symbols) (x.emit symbols') :=
  (x.operands_agree symbols symbols' none).finish _

mutual

theorem Statement.emit_agree : ∀ (s : Statement) (loop : Option Nat) (start : Nat),
    Agree (s.emit symbols loop start) (s.emit symbols' loop start)
  | .function _ _ body .., _, _ => by
    rw [Statement.emit, Statement.emit]
    refine .step _ fun _ => .step _ fun _ => .step _ fun _ => .step _ fun _ => .step _ fun _ => ?_
    exact (emitList_agree body none _ []).finish _
  | .declare _ value _, _, _ | .returns (some value) _, _, _ | .print value _, _, _
  | .expression value _, _, _ => by
    rw [Statement.emit, Statement.emit]
    exact (value.emit_agree symbols symbols').finish _
  | .ifThen condition yes _, loop, _ => by
    rw [Statement.emit, Statement.emit]
    exact (condition.emit_agree symbols symbols').bind fun _ =>
      (yes.emit_agree loop _).finish _
  | .ifElse condition yes no _, loop, _ => by
    rw [Statement.emit, Statement.emit]
    refine (condition.emit_agree symbols symbols').bind fun _ => ?_
    refine (yes.emit_agree loop _).bind fun _ => .step _ fun _ => ?_
    exact (no.emit_agree loop _).finish _
  | .whileLoop condition body _, _, _ => by
    rw [Statement.emit, Statement.emit]
    refine .step _ fun base => (condition.emit_agree symbols symbols').bind fun _ => ?_
    exact (body.emit_agree (some base) _).finish _
  | .doWhile body condition _, _, start => by
    rw [Statement.emit, Statement.emit]
    refine .step _ fun base => (body.emit_agree (some base) start).bind fun _ => ?_
    exact (condition.emit_agree symbols symbols').finish _
  | .block statements _, loop, start => by
    rw [Statement.emit, Statement.emit]
    exact .step _ fun _ => (emitList_agree statements loop start []).finish _
  | .returns none _, _, _ | .breakLoop _, _, _ | .continueLoop _, _, _ => by
    rw [Statement.emit, Statement.emit]
    exact .refl _

theorem emitList_agree : ∀ (statements : List Statement) (loop : Option Nat) (start : Nat)
    (written : Emit.Fragment),
    Agree (emitList symbols loop start written statements)
      (emitList symbols' loop start written statements)
  | [], _, _, _ => by
    rw [emitList, emitList]
    exact .refl _
  | s :: rest, loop, start, _ => by
    rw [emitList, emitList]
    exact (s.emit_agree loop start).bind fun _ => emitList_agree rest loop _ _

end

/-- A program that can be written under one symbol table is written the same under another, and
fails the same unless a symbol has no place to live. -/
theorem Program.emit_agree (statements : List Statement) :
    Program.emit ⟨statements, symbols⟩ = Program.emit ⟨statements, symbols'⟩ ∨ ∃ name,
      Program.emit ⟨statements, symbols⟩ = .error (.unresolvedSymbol name) := by
  unfold Program.emit Program.emitCode
  rcases emitList_agree symbols symbols' statements none 0 [] .empty with
    same | ⟨name, _, here, _⟩
  · simp only [StateT.run, same]
    exact .inl trivial
  · simp only [StateT.run, here]
    exact .inr ⟨name, rfl⟩

end Bindery.Bound

namespace Bindery

/-! ### Compiled files -/

variable {file : SourceFile}

/-- A file without diagnostics is written the same under the new names. -/
theorem SourceFile.emit_rename (r : Renaming) (clean : file.bind.2 = []) :
    (file.rename r).bind.1.emit = file.bind.1.emit := by
  have written : (file.rename r).bind.1.emit =
      Bound.Program.emit ⟨file.bind.1.statements, (file.rename r).bind.1.symbols⟩ := by
    rw [← (file.bind_rename r).1]
  rw [written]
  rcases Bound.Program.emit_agree file.bind.1.symbols (file.rename r).bind.1.symbols
    file.bind.1.statements with same | ⟨name, failed⟩
  · exact same.symm
  · rcases emit_error_of_clean clean failed with limit | ⟨span, node⟩
    · cases limit
    · cases node

/-- A file has no diagnostics exactly if it has none under new names. -/
theorem SourceFile.clean_rename (r : Renaming) :
    (file.rename r).bind.2 = [] ↔ file.bind.2 = [] := by
  rw [← List.map_eq_nil_iff, (file.bind_rename r).2, List.map_eq_nil_iff]

/-- A file without diagnostics has the same image under new names. -/
theorem SourceFile.compile_rename (r : Renaming) (clean : file.bind.2 = []) :
    (file.rename r).compile = file.compile := by
  rw [compile_of_clean clean, compile_of_clean (clean_rename r |>.mpr clean), emit_rename r clean]

/-- What goes wrong when code is written is a limit of the machine. -/
theorem SourceFile.isLimit_of_compile {cause : Machine.EmitError}
    (failed : file.compile = .error (.emit cause)) : cause.isLimit = true := by
  by_cases clean : file.bind.2 = []
  · rcases compile_cases_of_clean clean with ⟨_, compiled, _⟩ | ⟨_, stopped, limit⟩ | ⟨_, stopped⟩
    · cases compiled.symm.trans failed
    · cases stopped.symm.trans failed
      exact limit
    · cases stopped.symm.trans failed
  · cases (compile_of_found clean).symm.trans failed

/-- Names do not matter: the file with its names changed has the same problems at the same
places, the same image, is incomplete at the same place or exceeds the same limit. -/
theorem SourceFile.names_exchangeable (r : Renaming) (file : SourceFile) :
    (file.rename r).bind.2.map (fun d => (d.code, d.span)) =
        file.bind.2.map (fun d => (d.code, d.span)) ∧
      (∀ image, (file.rename r).compile = .ok image ↔ file.compile = .ok image) ∧
      (∀ span, (file.rename r).compile = .error (.incomplete span) ↔
        file.compile = .error (.incomplete span)) ∧
      (∀ cause, (file.rename r).compile = .error (.emit cause) ↔
        file.compile = .error (.emit cause)) ∧
      ∀ cause, file.compile = .error (.emit cause) → cause.isLimit = true := by
  refine ⟨(file.bind_rename r).2, ?_⟩
  by_cases clean : file.bind.2 = []
  · rw [compile_rename r clean]
    exact ⟨fun _ => .rfl, fun _ => .rfl, fun _ => .rfl, fun _ => isLimit_of_compile⟩
  · rw [compile_of_found clean, compile_of_found (mt (clean_rename r).mp clean)]
    simp

def Renaming.swap (a b : String) (here : a ≠ "") (there : b ≠ "") : Renaming where
  apply name := if name = a then b else if name = b then a else name
  injective first second same := by grind
  missing := by rw [if_neg here.symm, if_neg there.symm]

open Unplaced in
/-- A parameter hides a variable of the program: `let x = 1 fun f(x: Int): Int { let y = x return
y } print f(x)`. -/
def hidingFile : SourceFile :=
  source "hiding" [var "x" (int 1),
    function "f" [("x", "Int")] "Int" [var "y" (use "x"), give (use "y")],
    print (call "f" [use "x"])]

/-- The file has the same image with `x` and `f` exchanged. -/
theorem hidingFile_exchanged : ∃ image, hidingFile.compile = .ok image ∧
    (hidingFile.rename (.swap "x" "f" (by decide) (by decide))).compile = .ok image := by
  have succeeds : hidingFile.compile.toOption.isSome = true := by decide +kernel
  obtain ⟨image, compiled⟩ := ok_of_toOption_isSome succeeds
  exact ⟨image, compiled, ((hidingFile.names_exchangeable _).2.1 image).mpr compiled⟩

end Bindery
