import Bindery.Proofs.Lexical

/-!
What binding a statement leaves as it was.

Scopes and jump contexts are opened and left in pairs, so behind a statement the same ones are open
as before it. Only the innermost scope can have changed: it holds what it held, and what it has
gained are symbols that the statement made, under the names of `Statement.names`
(`Binder.Extends`). Since new entries are new symbols, an entry of any scope, seen or hidden, stays
a position of the symbol table.
-/

namespace Bindery

open Binder

/-- Every entry of the open scopes, hidden ones included, is a position below `size`. -/
def ScopeChain.Below (c : ScopeChain) (size : Nat) : Prop :=
  ∀ scope ∈ c.toList, ∀ (name : String) (id : SymbolId), scope[name]? = some id → id < size

namespace Binder

/-- Of the scopes only the innermost one has changed. It keeps its entries, and those it gains are
symbols made in between, under some of `names`. -/
structure Extends (names : List String) (b b' : Binder) : Prop where
  grows : Grows b b'
  kept : ∀ (name : String) (id : SymbolId), b.scopes.current[name]? = some id →
    b'.scopes.current[name]? = some id
  gained : ∀ (name : String) (id : SymbolId), b'.scopes.current[name]? = some id →
    b.scopes.current[name]? = some id ∨
      (name ∈ names ∧ name ≠ "") ∧ b.symbols.size ≤ id ∧ id < b'.symbols.size

theorem Grows.size_le {b b' : Binder} (h : Grows b b') : b.symbols.size ≤ b'.symbols.size := by
  rw [← SymbolTable.length_toList, ← SymbolTable.length_toList]
  exact h.symbols.length_le

namespace Extends

variable {names first second : List String} {b b' b'' : Binder}

/-- Where no scope changes, nothing is gained. -/
theorem of_scopes (grows : Grows b b') (same : b'.scopes = b.scopes) : Extends names b b' where
  grows := grows
  kept := by
    intro name id held
    rw [same]
    exact held
  gained := by
    intro name id held
    rw [same] at held
    exact .inl held

theorem trans (left : Extends first b b') (right : Extends second b' b'') :
    Extends (first ++ second) b b'' where
  grows := left.grows.trans right.grows
  kept := by
    intro name id held
    exact right.kept name id (left.kept name id held)
  gained := by
    intro name id held
    rcases right.gained name id held with before | ⟨⟨declared, named⟩, new, made⟩
    · rcases left.gained name id before with old | ⟨⟨declared, named⟩, new, made⟩
      · exact .inl old
      · exact .inr ⟨⟨List.mem_append_left _ declared, named⟩, new,
          Nat.lt_of_lt_of_le made right.grows.size_le⟩
    · exact .inr ⟨⟨List.mem_append_right _ declared, named⟩,
        Nat.le_trans left.grows.size_le new, made⟩

/-- What comes before changes no scope. -/
theorem after (h : Extends names b' b'') (grows : Grows b b') (same : b'.scopes = b.scopes) :
    Extends names b b'' :=
  (of_scopes grows same : Extends [] b b').trans h

/-- What comes behind changes no scope. -/
theorem before (h : Extends names b b') (grows : Grows b' b'') (same : b''.scopes = b'.scopes) :
    Extends names b b'' := by
  have whole := h.trans (of_scopes grows same : Extends [] b' b'')
  rwa [List.append_nil] at whole

theorem note (h : Extends names b b') (findings : List Finding) :
    Extends names b (b'.note findings) :=
  h.before ((Grows.refl b').note findings) rfl

/-- A declaration adds a new symbol under its name, unless the scope has the name already. -/
theorem declareNew {name : Identifier} {taken : Bool} (symbol : Symbol)
    (same : taken = b.scopes.declares name.name) :
    Extends [name.name] b ((b.alloc symbol).declare taken name b.symbols.size) := by
  have grows : Grows b ((b.alloc symbol).declare taken name b.symbols.size) :=
    ((Grows.refl b).alloc symbol).declare ..
  by_cases passed : taken || name.isMissing
  · refine of_scopes grows ?_
    rw [Binder.declare, if_pos passed]
    rfl
  · simp only [Bool.or_eq_true, not_or, Bool.not_eq_true] at passed
    obtain ⟨free, given⟩ := passed
    have absent : b.scopes.current[name.name]? = none := by
      rwa [same, ScopeChain.declares, Std.TreeMap.contains_eq_isSome_getElem?,
        Option.isSome_eq_false_iff, Option.isNone_iff_eq_none] at free
    have scope : ((b.alloc symbol).declare taken name b.symbols.size).scopes.current =
        b.scopes.current.insert name.name b.symbols.size := by
      simp only [Binder.declare, free, given, Bool.or_self, Bool.false_eq_true, if_false]
      rfl
    have size : ((b.alloc symbol).declare taken name b.symbols.size).symbols.size =
        b.symbols.size + 1 := by
      rw [declare_symbols]
      exact SymbolTable.size_alloc ..
    refine ⟨grows, ?_, ?_⟩
    · intro other id held
      have differs : name.name ≠ other := by
        intro equal
        rw [← equal, absent] at held
        cases held
      rw [scope, Std.TreeMap.getElem?_insert]
      simp [differs, held]
    · intro other id held
      rw [scope, Std.TreeMap.getElem?_insert] at held
      by_cases equal : name.name = other
      · subst equal
        simp only [Std.compare_self, if_true, Option.some.injEq] at held
        subst held
        refine .inr ⟨⟨List.mem_singleton_self _, ?_⟩, Nat.le_refl _, ?_⟩
        · simpa [Identifier.isMissing] using given
        · rw [size]
          exact Nat.lt_succ_self _
      · simp only [Std.LawfulEqOrd.compare_eq_iff_eq, equal, if_false] at held
        exact .inl held

/-- Old entries are below the old size and new ones below the new size. -/
theorem below (h : Extends names b b') (inside : b.scopes.Below b.symbols.size) :
    b'.scopes.Below b'.symbols.size := by
  have grown := h.grows.size_le
  intro scope mem name id held
  rw [ScopeChain.toList, h.grows.enclosing] at mem
  rcases List.mem_cons.mp mem with rfl | outer
  · rcases h.gained name id held with old | ⟨_, _, made⟩
    · exact Nat.lt_of_lt_of_le (inside _ List.mem_cons_self name id old) grown
    · exact made
  · exact Nat.lt_of_lt_of_le (inside scope (List.mem_cons_of_mem _ outer) name id held) grown

/-- The diagnostics of earlier code stay in front. -/
theorem diagnostics (h : Extends names b b') : b.diagnostics <+: b'.diagnostics :=
  (List.reverse_prefix.mpr h.grows.found).filterMap _

end Extends

end Binder

/-! ### Statements -/

/-- A statement changes the innermost scope only, where it declares its names. -/
theorem Statement.Binds.extendsScope {s : Statement} {b b' : Binder} {s' : Bound.Statement} :
    s.Binds b s' b' → Extends s.names b b'
  | .function redeclared parameters typed body => by
    have same := checkRedeclared_taken redeclared
    obtain ⟨_, rfl⟩ := checkRedeclared_note redeclared
    obtain ⟨made, unchanged, _⟩ := bindParameters_eq parameters
    obtain ⟨_, rfl⟩ := bindType?_note typed
    obtain ⟨left, restored⟩ := leaveFunction_grows body.grows
    refine Extends.after (Extends.before (Extends.declareNew _ ?_) left restored)
      ((((Grows.refl _).note _).trans made).note _) unchanged
    exact same.trans (congrArg (ScopeChain.declares · _) unchanged.symm)
  | .declare redeclared typed value => by
    have same := checkRedeclared_taken redeclared
    obtain ⟨rfl, _, rfl⟩ := declaration_note redeclared typed value
    refine Extends.note (Extends.after (Extends.declareNew _ ?_) ((Grows.refl _).note _) rfl) _
    exact same
  | .ifThen condition yes => by
    obtain ⟨rfl, rfl⟩ := bindExpression_eq condition
    exact (yes.extendsScope.after ((Grows.refl _).note _) rfl).note _
  | .ifElse condition yes no => by
    obtain ⟨rfl, rfl⟩ := bindExpression_eq condition
    exact ((yes.extendsScope.trans no.extendsScope).after ((Grows.refl _).note _) rfl).note _
  | .whileLoop condition body => by
    obtain ⟨rfl, rfl⟩ := bindExpression_eq condition
    obtain ⟨grows, kept, gained⟩ := body.extendsScope
    have inner : Extends _ _ _ := ⟨grows.popJump, kept, gained⟩
    exact (inner.after ((Grows.refl _).note _) rfl).note _
  | .doWhile body condition => by
    obtain ⟨rfl, rfl⟩ := bindExpression_eq condition
    obtain ⟨grows, kept, gained⟩ := body.extendsScope
    have inner : Extends _ _ _ := ⟨grows.popJump, kept, gained⟩
    exact (inner.note _).note _
  | .returnsUnit => .of_scopes (.refl _) rfl
  | .breakLoop | .continueLoop => by
    obtain ⟨_, same⟩ := checkJump_note _ _ _
    rw [same]
    exact .of_scopes ((Grows.refl _).note _) rfl
  | .returns value | .print value | .expression value => by
    obtain ⟨rfl, rfl⟩ := bindExpression_eq value
    exact .of_scopes ((Grows.refl _).note _) rfl
  | .block statements => .of_scopes statements.grows.popScope statements.grows.scopes_popScope

/-- Statements declare their names one after the other. -/
theorem BindsList.extendsScope {statements : List Statement} {b b' : Binder}
    {bound : List Bound.Statement} (run : BindsList statements b bound b') :
    Extends (statements.flatMap Statement.names) b b' := by
  induction statements generalizing b bound with
  | nil =>
    cases run
    exact .of_scopes (.refl _) rfl
  | cons _ _ ih =>
    cases run with
    | cons first others =>
      rw [List.flatMap_cons]
      exact first.extendsScope.trans (ih others)

/-! ### The state behind a statement -/

/-- What may differ from one state of binding to a later one: the innermost scope gains some of
`names`, symbols and diagnostics are added, and all else is as before. -/
structure Binder.Restored (names : List String) (b b' : Binder) : Prop where
  jumps : b'.jumps = b.jumps
  depth : b'.scopes.toList.length = b.scopes.toList.length
  outer : b'.scopes.enclosing = b.scopes.enclosing
  kept : ∀ (name : String) (id : SymbolId), b.scopes.current[name]? = some id →
    b'.scopes.current[name]? = some id
  gained : ∀ (name : String) (id : SymbolId), b'.scopes.current[name]? = some id →
    b.scopes.current[name]? = some id ∨ name ∈ names
  symbols : b.symbols.toList <+: b'.symbols.toList
  diagnostics : b.diagnostics <+: b'.diagnostics
  below : b.scopes.Below b.symbols.size → b'.scopes.Below b'.symbols.size

theorem Binder.Extends.restored {names : List String} {b b' : Binder} (h : Extends names b b') :
    Restored names b b' where
  jumps := h.grows.jumps
  depth := by simp [ScopeChain.toList, h.grows.enclosing]
  outer := h.grows.enclosing
  kept := h.kept
  gained := fun name id held => (h.gained name id held).imp_right (·.1.1)
  symbols := h.grows.symbols
  diagnostics := h.diagnostics
  below := h.below

/-- Whatever the state it starts from, a statement leaves the jump contexts, the number of open
scopes and the outer ones as they were; it adds its own names to the innermost scope, symbols to
the table and diagnostics behind the earlier ones, and names that stood for symbols of the table
still do. An expression adds diagnostics and nothing else. -/
theorem Statement.bind_restores (s : Statement) (e : Expression) (b : Binder) :
    Restored s.names b (s.bind b).2 ∧
      (b.bindExpression e).2 = { b with found := (b.bindExpression e).2.found } ∧
      b.diagnostics <+: (b.bindExpression e).2.diagnostics := by
  refine ⟨(s.binds b).extendsScope.restored, ?_, ?_⟩
  · rw [bindExpression_eq_bind]
    rfl
  · rw [bindExpression_eq_bind]
    have noted : Extends [] b (b.note (e.bind b.environment).2) :=
      .of_scopes ((Grows.refl b).note _) rfl
    exact noted.diagnostics

end Bindery
