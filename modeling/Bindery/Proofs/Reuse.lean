import Bindery.Proofs.NameReports
import Bindery.Proofs.Renaming
import Bindery.Proofs.Restoration

/-!
One binder for several files.

The program scope of a binder outlives a file, the symbol table does not, so a name of an earlier
file can stand for any symbol of a later one or for none. A file that uses no such name cannot
tell: the used binder and a new one bind it side by side, with the same names, and as far as the
names of the file count (`Comparison.exact`) their scopes agree. So the results are the same. What
is left in the program scope of a used binder are names that the earlier file declares there.
-/

namespace Bindery

open Binder

/-! ### Names of a file -/

def SourceFile.vocabulary (file : SourceFile) : List String := vocabularyOfList file.statements

/-- The names that a file declares in the program scope. A missing name declares nothing. -/
def SourceFile.programNames (file : SourceFile) : List String :=
  (file.statements.flatMap Statement.names).filter (· ≠ "")

/-! ### The same names -/

mutual

theorem Expression.rename_refl : ∀ e : Expression, e.rename .refl = e
  | .literal .. => by rw [Expression.rename]
  | .reference _ => by
    rw [Expression.rename]
    rfl
  | .assignment target value _ => by rw [Expression.rename, target.rename_refl, value.rename_refl]
  | .binary left _ _ right _ => by rw [Expression.rename, left.rename_refl, right.rename_refl]
  | .unary _ _ operand _ => by rw [Expression.rename, operand.rename_refl]
  | .parenthesized inner _ => by rw [Expression.rename, inner.rename_refl]
  | .call target arguments .. => by
    rw [Expression.rename, target.rename_refl, renameArguments_refl arguments]
  | .ternary condition yes no _ => by
    rw [Expression.rename, condition.rename_refl, yes.rename_refl, no.rename_refl]

theorem renameArguments_refl : ∀ arguments : List Expression,
    renameArguments .refl arguments = arguments
  | [] => by rw [renameArguments]
  | e :: rest => by rw [renameArguments, e.rename_refl, renameArguments_refl rest]

end

mutual

theorem Statement.rename_refl : ∀ s : Statement, s.rename .refl = s
  | .function _ parameters _ body .. => by
    have given : parameters.map (·.rename .refl) = parameters := List.map_id parameters
    rw [Statement.rename, renameList_refl body, given]
    rfl
  | .declare _ _ _ value _ => by
    rw [Statement.rename, value.rename_refl]
    rfl
  | .ifThen condition yes _ => by rw [Statement.rename, condition.rename_refl, yes.rename_refl]
  | .ifElse condition yes no _ => by
    rw [Statement.rename, condition.rename_refl, yes.rename_refl, no.rename_refl]
  | .whileLoop condition body _ => by rw [Statement.rename, condition.rename_refl, body.rename_refl]
  | .doWhile body condition _ => by rw [Statement.rename, body.rename_refl, condition.rename_refl]
  | .block statements _ => by rw [Statement.rename, renameList_refl statements]
  | .returns none _ => by rw [Statement.rename]
  | .returns (some value) _ | .print value _ | .expression value _ => by
    rw [Statement.rename, value.rename_refl]
  | .breakLoop _ => by rw [Statement.rename]
  | .continueLoop _ => by rw [Statement.rename]

theorem renameList_refl : ∀ statements : List Statement, renameList .refl statements = statements
  | [] => by rw [renameList]
  | s :: rest => by rw [renameList, s.rename_refl, renameList_refl rest]

end

/-- The names of a list count, and all of a finding. -/
def Comparison.exact (names : List String) : Comparison Finding :=
  ⟨.refl, { name | name ∈ names }, id, fun _ _ _ => rfl⟩

/-- The used binder and the new one have the same symbols and findings. -/
theorem Binder.Renamed.eq_of_exact {names : List String} {b c : Binder}
    (h : b.Renamed (.exact names) c) : c.symbols = b.symbols ∧ c.found = b.found := by
  constructor
  · have same : c.symbols.toList = b.symbols.toList := h.symbols.trans (List.map_id _)
    exact congrArg SymbolTable.mk (Array.toList_inj.mp same)
  · simpa [Alike, Comparison.exact] using h.found

/-! ### Files -/

namespace Binder

/-- What a run over the statements of a file comes to, once the returns are checked. -/
theorem bindNext?_eq {b b' : Binder} {file : SourceFile} {bound : List Bound.Statement}
    (run : BindsList file.statements b bound b') (problems : OnlyProblems b'.found) :
    b.bindNext? file = some (⟨bound, b'.symbols⟩,
      (b'.note ((Bound.checkBody .unit bound).2.map .problem)).diagnostics,
      { b' with symbols := ∅, found := [] }) := by
  have noted : OnlyProblems (b'.note ((Bound.checkBody .unit bound).2.map .problem)).found := by
    intro id mem
    rw [found_note, List.mem_append, List.mem_reverse] at mem
    exact mem.elim (OnlyProblems.problems _ id) (problems id)
  have statements : bindList [] file.statements b = (bound, b') := run.bind_eq []
  unfold bindNext? bindFile
  simp only [statements]
  have none := dangling?_eq_none noted
  rw [if_neg]
  · rfl
  · change ¬ (Binder.dangling? (b'.note _)).isSome = true
    rw [none]
    simp

/-- Behind a file, a new binder holds nothing but names of its program scope. -/
theorem renamed_of_apart {f g : SourceFile} {b : Binder} {bound : List Bound.Statement}
    (run : BindsList f.statements .new bound b)
    (apart : ∀ name ∈ f.programNames, name ∉ g.vocabulary) :
    Binder.new.Renamed (.exact g.vocabulary) { b with symbols := ∅, found := [] } := by
  have extended := run.extendsScope
  refine ⟨⟨?_, ?_⟩, rfl, extended.grows.jumps, rfl⟩
  · intro name mem
    change b.scopes.current[name]? = (∅ : Scope)[name]?
    rw [Std.TreeMap.getElem?_emptyc]
    cases held : b.scopes.current[name]? with
    | none => rfl
    | some id =>
      rcases extended.gained name id held with before | ⟨⟨declared, named⟩, _⟩
      · cases before
      · have known : name ∈ f.programNames := by
          simp only [SourceFile.programNames, List.mem_filter, declared, decide_eq_true_eq, named,
            not_false_eq_true, ne_eq, and_self]
        exact absurd mem (apart name known)
  · rw [show b.scopes.enclosing = [] from extended.grows.enclosing]
    exact .nil

end Binder

/-- A binder that has bound a file binds the next one as a new binder does, to the same program
with the same symbols and the same diagnostics, and looks up no position outside the symbol table,
if no name that the first file declares in the program scope occurs in the second as a declared
name, a parameter or a reference. -/
theorem SourceFile.bind_after_apart (f g : SourceFile)
    (apart : ∀ name ∈ f.programNames, name ∉ g.vocabulary) :
    ∃ b b', Binder.new.bindNext? f = some (f.bind.1, f.bind.2, b) ∧
      b.bindNext? g = some (g.bind.1, g.bind.2, b') := by
  obtain ⟨boundF, bF, runF, programF, diagnosticsF⟩ := f.binds
  obtain ⟨boundG, bG, runG, programG, diagnosticsG⟩ := g.binds
  have problemsF := (runF.grounded .new).found
  have problemsG := (runG.grounded .new).found
  obtain ⟨c, again, renamed⟩ := runG.rename (fun _ mem => mem) (renamed_of_apart runF apart)
  change BindsList (renameList .refl g.statements) _ _ _ at again
  rw [renameList_refl] at again
  obtain ⟨symbols, found⟩ := renamed.eq_of_exact
  have first := bindNext?_eq runF problemsF
  have second := bindNext?_eq again (found ▸ problemsG)
  refine ⟨{ bF with symbols := ∅, found := [] }, { c with symbols := ∅, found := [] }, ?_, ?_⟩
  · rw [programF, diagnosticsF]
    exact first
  · rw [second, programG, diagnosticsG, symbols, Binder.diagnostics, Binder.diagnostics, found_note,
      found_note, found]

open Unplaced in
/-- A file that leaves three names behind:
`let a = 1 if (true) let b = 2 fun f(x: Int) { print x }`. The parameter is not among them. -/
def earlierFile : SourceFile :=
  source "earlier" [val "a" (int 1), ifThen (boolean true) (val "b" (int 2)),
    function "f" [("x", "Int")] none [print (use "x")]]

open Unplaced in
/-- A file with a hidden name and an unknown one: `let x = 1 { let x = true print x } print y`. -/
def laterFile : SourceFile :=
  source "later" [val "x" (int 1), block [val "x" (boolean true), print (use "x")], print (use "y")]

/-- The second file is bound as on its own, and its unknown name is reported. -/
theorem laterFile_bound_as_alone :
    earlierFile.programNames = ["a", "b", "f"] ∧ laterFile.bind.2.map (·.code) = [2001] ∧
      (∀ name ∈ earlierFile.programNames, name ∉ laterFile.vocabulary) ∧
      ∃ b b', Binder.new.bindNext? earlierFile =
          some (earlierFile.bind.1, earlierFile.bind.2, b) ∧
        b.bindNext? laterFile = some (laterFile.bind.1, laterFile.bind.2, b') := by
  have apart : ∀ name ∈ earlierFile.programNames, name ∉ laterFile.vocabulary := by decide
  exact ⟨by decide, by decide +kernel, apart, SourceFile.bind_after_apart _ _ apart⟩

end Bindery
