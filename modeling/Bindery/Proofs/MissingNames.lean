import Bindery.Proofs.Limits

/-!
What becomes of missing names.

A reference to a missing name is bound to an error node, without a report of its own. Whatever
stands around it, the bound tree keeps an error node: an expression around it holds it, or is in
error itself. Code can be written only for a tree without error nodes, so a file that refers to a
missing name has no image.

The other places of a name are not looked at again. A variable, a function or a parameter without
a name is one that nothing can refer to, and a type without a name is the error type, which
agrees with all others; a file that lacks such a name can have an image.
-/

namespace Bindery

mutual

/-- Every name that a statement refers to, besides the names of types. -/
def Statement.references : Statement → List Identifier
  | .function _ _ _ body .. => referencesOfList body
  | .declare _ _ _ value _ => value.identifiers
  | .ifThen condition yes _ => condition.identifiers ++ yes.references
  | .ifElse condition yes no _ => condition.identifiers ++ (yes.references ++ no.references)
  | .whileLoop condition body _ => condition.identifiers ++ body.references
  | .doWhile body condition _ => body.references ++ condition.identifiers
  | .block statements _ => referencesOfList statements
  | .returns none _ => []
  | .returns (some value) _ => value.identifiers
  | .breakLoop _ => []
  | .continueLoop _ => []
  | .print value _ => value.identifiers
  | .expression value _ => value.identifiers

def referencesOfList : List Statement → List Identifier
  | [] => []
  | s :: rest => s.references ++ referencesOfList rest

end

def SourceFile.references (file : SourceFile) : List Identifier :=
  referencesOfList file.statements

/-! ### Error nodes of bound trees -/

def Bound.HasError (nodes : List Bound.Expression) : Prop := ∃ span, .error span ∈ nodes

namespace Bound.HasError

variable {first second : List Bound.Expression} {x : Bound.Expression}

theorem here (span : Span) : HasError [.error span] := ⟨span, List.mem_singleton_self _⟩

theorem inside (h : HasError first) : HasError (x :: first) :=
  h.imp fun _ mem => List.mem_cons_of_mem _ mem

theorem left (h : HasError first) : HasError (first ++ second) :=
  h.imp fun _ mem => List.mem_append_left _ mem

theorem right (h : HasError second) : HasError (first ++ second) :=
  h.imp fun _ mem => List.mem_append_right _ mem

end Bound.HasError

open Bindery.Bound (HasError)

variable {i : Identifier}

/-- A reference to a missing name is in error. -/
theorem hasError_bindReference {env : Environment} (missing : i.isMissing = true) :
    HasError (bindReference env i).1.nodes := by
  unfold bindReference
  rw [if_pos missing]
  exact .here i.span

/-- Only a name that is there can be stored to. -/
theorem not_assignable_of_hasError {env : Environment} {x : Bound.Expression}
    (error : HasError x.nodes) : assignable? env.symbols x = none := by
  cases x with
  | reference =>
    obtain ⟨_, mem⟩ := error
    rw [Bound.Expression.nodes, List.mem_singleton] at mem
    cases mem
  | _ => rfl

variable {env : Environment}

mutual

/-- A reference to a missing name leaves an error node in the bound expression. -/
theorem Expression.hasError_bind (missing : i.isMissing = true) :
    ∀ {e : Expression}, i ∈ e.identifiers → HasError (e.bind env).1.nodes
  | .reference _, mem => by
    cases List.mem_singleton.mp mem
    rw [Expression.bind]
    exact hasError_bindReference missing
  | .assignment target _ span, mem => by
    rw [Expression.bind]
    rcases List.mem_append.mp mem with first | second
    · simp only [not_assignable_of_hasError (Expression.hasError_bind missing first)]
      exact .here span
    · cases assignable? env.symbols (target.bind env).1 with
      | none => exact .here span
      | some => exact (Expression.hasError_bind missing second).inside
  | .binary left _ _ right span, mem => by
    rw [Expression.bind]
    split
    · exact .here span
    · split
      · rcases List.mem_append.mp mem with first | second
        · exact (Expression.hasError_bind missing first).left.inside
        · exact (Expression.hasError_bind missing second).right.inside
      · exact .here span
  | .unary _ _ operand span, mem => by
    rw [Expression.bind]
    split
    · exact .here span
    · split
      · exact (Expression.hasError_bind missing (e := operand) mem).inside
      · exact .here span
  | .parenthesized inner _, mem => by
    rw [Expression.bind]
    exact (Expression.hasError_bind missing (e := inner) mem).inside
  | .call _ _ _ span, mem => by
    rw [Expression.bind]
    simp only
    split
    · rcases List.mem_append.mp mem with first | second
      · exact (Expression.hasError_bind missing first).left.inside
      · exact (hasError_bindArguments missing second).right.inside
    · exact .here span
  | .ternary .., mem => by
    rw [Expression.bind]
    rcases List.mem_append.mp mem with first | branch
    · exact (Expression.hasError_bind missing first).left.inside
    · rcases List.mem_append.mp branch with second | third
      · exact (Expression.hasError_bind missing second).left.right.inside
      · exact (Expression.hasError_bind missing third).right.right.inside

theorem hasError_bindArguments (missing : i.isMissing = true) :
    ∀ {arguments : List Expression}, i ∈ identifiersOfArguments arguments →
      HasError (Bound.nodesOfArguments (bindArguments env arguments).1)
  | _ :: _, mem => by
    rw [bindArguments]
    rcases List.mem_append.mp mem with first | others
    · exact (Expression.hasError_bind missing first).left
    · exact (hasError_bindArguments missing others).right

end

theorem Binder.hasError_bindExpression {b b' : Binder} {e : Expression} {e' : Bound.Expression}
    (run : b.bindExpression e = (e', b')) (missing : i.isMissing = true)
    (mem : i ∈ e.identifiers) : HasError e'.nodes := by
  rw [(bindExpression_eq run).1]
  exact Expression.hasError_bind missing mem

open Binder

mutual

/-- A reference to a missing name leaves an error node in the bound statement. -/
theorem Statement.Binds.hasError {b b' s'} (missing : i.isMissing = true) {s : Statement} :
    s.Binds b s' b' → i ∈ s.references → HasError s'.nodes
  | .function _ _ _ body, mem => body.hasError missing mem
  | .declare _ _ value, mem | .returns value, mem | .print value, mem | .expression value, mem =>
    hasError_bindExpression value missing mem
  | .ifThen condition yes, mem => by
    rcases List.mem_append.mp mem with first | second
    · exact (hasError_bindExpression condition missing first).left
    · exact (yes.hasError missing second).right
  | .ifElse condition yes no, mem => by
    rcases List.mem_append.mp mem with first | branch
    · exact (hasError_bindExpression condition missing first).left
    · rcases List.mem_append.mp branch with second | third
      · exact (yes.hasError missing second).left.right
      · exact (no.hasError missing third).right.right
  | .whileLoop condition body, mem => by
    rcases List.mem_append.mp mem with first | second
    · exact (hasError_bindExpression condition missing first).left
    · exact (body.hasError missing second).right
  | .doWhile body condition, mem => by
    rcases List.mem_append.mp mem with first | second
    · exact (body.hasError missing first).left
    · exact (hasError_bindExpression condition missing second).right
  | .block statements, mem => statements.hasError missing mem

theorem BindsList.hasError {statements b b' bound} (missing : i.isMissing = true) :
    BindsList statements b bound b' → i ∈ referencesOfList statements →
      HasError (Bound.nodesOfList bound)
  | .cons first others, mem => by
    rcases List.mem_append.mp mem with here | there
    · exact (first.hasError missing here).left
    · exact (others.hasError missing there).right

end

end Bindery

namespace Bindery.Bound

/-! ### Only a tree without error nodes is written -/

theorem not_hasError_cons {x : Expression} {nodes : List Expression}
    (node : ∀ span, x ≠ .error span) (rest : ¬ HasError nodes) : ¬ HasError (x :: nodes) := by
  rintro ⟨span, mem⟩
  rcases List.mem_cons.mp mem with here | there
  · exact node span here.symm
  · exact rest ⟨span, there⟩

theorem not_hasError_append {first second : List Expression} (left : ¬ HasError first)
    (right : ¬ HasError second) : ¬ HasError (first ++ second) := by
  rintro ⟨span, mem⟩
  rcases List.mem_append.mp mem with here | there
  · exact left ⟨span, here⟩
  · exact right ⟨span, there⟩

theorem not_hasError_nil : ¬ HasError [] := fun ⟨_, mem⟩ => List.not_mem_nil mem

variable {symbols : SymbolTable}

mutual

/-- Code is written only for expressions without error nodes. -/
theorem Expression.Writes.not_hasError {x : Expression} {chain e e' code} :
    x.Writes symbols chain e code e' → ¬ HasError x.nodes
  | .literal _ | .reference _ => not_hasError_cons (by simp) not_hasError_nil
  | .assignment value _ => not_hasError_cons (by simp) value.not_hasError
  | .apply _ left right | .testOperands _ left right | .test _ _ left right _
  | .concatOperands _ right left | .concat _ _ right left _ => not_hasError_cons (by simp)
    (not_hasError_append left.not_hasError right.not_hasError)
  | .unary operand => not_hasError_cons (by simp) operand.not_hasError
  | .parenthesized inner => not_hasError_cons (by simp) inner.not_hasError
  | .call arguments target => not_hasError_cons (by simp)
    (not_hasError_append target.not_hasError arguments.not_hasError)
  | .ternary condition yes _ no _ => not_hasError_cons (by simp)
    (not_hasError_append condition.not_hasError
      (not_hasError_append yes.not_hasError no.not_hasError))

theorem WritesArguments.not_hasError {arguments e e' code} :
    WritesArguments symbols arguments e code e' → ¬ HasError (nodesOfArguments arguments)
  | .nil => not_hasError_nil
  | .cons first others => not_hasError_append first.not_hasError others.not_hasError

end

mutual

/-- Code is written only for statements without error nodes. -/
theorem Statement.Writes.not_hasError {s : Statement} {loop start e e' code} :
    s.Writes symbols loop start e code e' → ¬ HasError s.nodes
  | .function _ _ body _ => body.not_hasError
  | .declare value _ => value.not_hasError
  | .ifThen condition yes _ => not_hasError_append condition.not_hasError yes.not_hasError
  | .ifElse condition yes _ no _ => not_hasError_append condition.not_hasError
    (not_hasError_append yes.not_hasError no.not_hasError)
  | .whileLoop condition body _ => not_hasError_append condition.not_hasError body.not_hasError
  | .doWhile body condition _ => not_hasError_append body.not_hasError condition.not_hasError
  | .block statements => statements.not_hasError
  | .returnsUnit => not_hasError_nil
  | .returns value => value.not_hasError
  | .breakLoop => not_hasError_nil
  | .continueLoop => not_hasError_nil
  | .print value => value.not_hasError
  | .expression value => value.not_hasError

theorem WritesList.not_hasError {loop start statements e e' code} :
    WritesList symbols loop start statements e code e' → ¬ HasError (nodesOfList statements)
  | .nil => not_hasError_nil
  | .cons first others => not_hasError_append first.not_hasError others.not_hasError

end

/-- A program that holds an error node has no image. -/
theorem Program.not_emitted_of_hasError {p : Program} (error : HasError (nodesOfList p.statements))
    (image : Machine.Image) : p.emit ≠ .ok image := by
  intro written
  obtain ⟨code, e, emitted, _, _⟩ := Program.emitCode_of_emit written
  obtain ⟨f, _, run⟩ := Program.writes_of_emitCode emitted
  exact run.not_hasError error

end Bindery.Bound

namespace Bindery

/-- A file that refers to a missing name has an error node. -/
theorem SourceFile.hasError_of_missing {file : SourceFile} {i : Identifier}
    (referred : i ∈ file.references) (missing : i.isMissing = true) :
    Bound.HasError (Bound.nodesOfList file.bind.1.statements) := by
  obtain ⟨bound, b, run, program, _⟩ := SourceFile.binds file
  rw [program]
  exact run.hasError missing referred

/-- A file that refers to a missing name is never compiled. If binding finds nothing to report,
it is incomplete or exceeds a limit of the machine. -/
theorem SourceFile.missing_reference_not_compiled {file : SourceFile} {i : Identifier}
    (referred : i ∈ file.references) (missing : i.name = "") :
    (∀ image, file.compile ≠ .ok image) ∧
      (file.bind.2 = [] → (∃ span, file.compile = .error (.incomplete span)) ∨
        ∃ cause, file.compile = .error (.emit cause) ∧ cause.isLimit = true) := by
  have error := hasError_of_missing referred (by simp [Identifier.isMissing, missing])
  by_cases clean : file.bind.2 = []
  · rcases compile_cases_of_clean clean with ⟨image, _, written⟩ | ⟨cause, failed, limit⟩ |
      ⟨span, failed⟩
    · exact absurd written (Bound.Program.not_emitted_of_hasError error image)
    · rw [failed]
      exact ⟨by simp, fun _ => .inr ⟨cause, rfl, limit⟩⟩
    · rw [failed]
      exact ⟨by simp, fun _ => .inl ⟨span, rfl⟩⟩
  · rw [compile_of_found clean]
    exact ⟨by simp, fun none => absurd none clean⟩

open Unplaced in
/-- A call in a loop lacks its argument: `fun f(b: Boolean) { while (b) f( ) }`. -/
def gapFile : SourceFile :=
  source "gap" [function "f" [("b", "Boolean")] none
    [.whileLoop (use "b") (.expression (call "f" [use ""]) default) default]]

theorem gapFile_incomplete :
    ⟨"", default⟩ ∈ gapFile.references ∧ gapFile.bind.2 = [] ∧
      (∀ image, gapFile.compile ≠ .ok image) ∧
      ((∃ span, gapFile.compile = .error (.incomplete span)) ∨
        ∃ cause, gapFile.compile = .error (.emit cause) ∧ cause.isLimit = true) := by
  have referred : ⟨"", default⟩ ∈ gapFile.references := by decide +kernel
  have clean : gapFile.bind.2 = [] := by decide +kernel
  obtain ⟨never, stopped⟩ := SourceFile.missing_reference_not_compiled referred rfl
  exact ⟨referred, clean, never, stopped clean⟩

open Unplaced in
/-- Files that each lack one name: of a variable, of its type, of a function, of a parameter, of
the type of a parameter and of the type of a result. -/
def lackingFiles : List SourceFile :=
  [val "" (int 1), .declare (name "x") (name "") true (int 1) default, function "" [] none [],
    function "f" [("", "Int")] none [], function "f" [("n", "")] none [],
    function "f" [] "" []].map fun s => source "lacking" [s]

/-- A file that lacks a name it does not refer to can have an image. -/
theorem lackingFiles_compiled : (lackingFiles.all fun file =>
    file.identifiers.any Identifier.isMissing && file.compile.isOk) = true := by
  decide +kernel

end Bindery
