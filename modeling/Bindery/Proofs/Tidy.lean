import Bindery.Proofs.Binding

/-!
Programs whose declarations stand in statement lists.

A declaration that is itself the branch of a condition or the body of a loop is run on some
paths only, so what it leaves behind differs from path to path. `SourceFile.DeclaresInLists`
excludes such files. In what is bound from such a file without findings, branches and bodies
of loops declare nothing, nothing stands behind a statement that ends, and a return is added
to a body exactly if it does not end (`Bound.Statement.Tidy`).
-/

namespace Bindery

mutual

/-- Every declaration in the statement stands in a statement list; `listed` says whether the
statement itself does. -/
def Statement.declaresInLists (listed : Bool) : Statement → Bool
  | .function _ _ _ body .. => listed && allDeclareInLists body
  | .declare .. => listed
  | .ifThen _ yes _ => yes.declaresInLists false
  | .ifElse _ yes no _ => yes.declaresInLists false && no.declaresInLists false
  | .whileLoop _ body _ => body.declaresInLists false
  | .doWhile body .. => body.declaresInLists false
  | .block statements _ => allDeclareInLists statements
  | .returns .. => true
  | .breakLoop _ => true
  | .continueLoop _ => true
  | .print .. => true
  | .expression .. => true

def allDeclareInLists : List Statement → Bool
  | [] => true
  | s :: rest => s.declaresInLists true && allDeclareInLists rest

end

/-- Declarations occur only in the program, in blocks and in bodies of functions, and not as
the branch of a condition or the body of a loop. -/
def SourceFile.DeclaresInLists (file : SourceFile) : Prop :=
  allDeclareInLists file.statements = true

instance (file : SourceFile) : Decidable file.DeclaresInLists :=
  inferInstanceAs (Decidable (allDeclareInLists file.statements = true))

end Bindery

namespace Bindery.Bound

mutual

/-- Nothing stands behind a statement that ends, and a return is added where a body does not end.
If all declarations are listed, branches and bodies of loops declare nothing. -/
inductive Statement.Tidy (listed : Prop) : Statement → Prop where
  | function {f parameters body insertReturn bodySpan span} : TidyList listed body →
      (insertReturn = true ↔ ¬ EndsList body) →
      Statement.Tidy listed (.function f parameters body insertReturn bodySpan span)
  | declare {s value span} : Statement.Tidy listed (.declare s value span)
  | ifThen {condition yes span} : yes.Tidy listed → (listed → yes.declares = []) →
      Statement.Tidy listed (.ifThen condition yes span)
  | ifElse {condition yes no span} : yes.Tidy listed → (listed → yes.declares = []) →
      no.Tidy listed → (listed → no.declares = []) →
      Statement.Tidy listed (.ifElse condition yes no span)
  | whileLoop {condition body span} : body.Tidy listed → (listed → body.declares = []) →
      Statement.Tidy listed (.whileLoop condition body span)
  | doWhile {body condition span} : body.Tidy listed → (listed → body.declares = []) →
      Statement.Tidy listed (.doWhile body condition span)
  | block {statements span} : TidyList listed statements →
      Statement.Tidy listed (.block statements span)
  | returns {value span} : Statement.Tidy listed (.returns value span)
  | breakLoop {span} : Statement.Tidy listed (.breakLoop span)
  | continueLoop {span} : Statement.Tidy listed (.continueLoop span)
  | print {value span} : Statement.Tidy listed (.print value span)
  | expression {value span} : Statement.Tidy listed (.expression value span)

inductive TidyList (listed : Prop) : List Statement → Prop where
  | nil : TidyList listed []
  | cons {s rest} : s.Tidy listed → (s.Ends → rest = []) → TidyList listed rest →
      TidyList listed (s :: rest)

end

end Bindery.Bound

namespace Bindery

open Binder

/-- A statement that declares nothing is bound to one that declares nothing. -/
theorem Statement.Binds.declares_eq_nil {s : Statement} {b b' : Binder} {s' : Bound.Statement} :
    s.Binds b s' b' → s.declaresInLists false = true → s'.declares = []
  | .function .., listed => nomatch listed
  | .declare .., listed => nomatch listed
  | .ifThen _ yes, listed => yes.declares_eq_nil listed
  | .ifElse _ yes no, listed => by
    obtain ⟨first, second⟩ := Bool.and_eq_true_iff.mp listed
    rw [Bound.Statement.declares, yes.declares_eq_nil first, no.declares_eq_nil second]
    rfl
  | .whileLoop _ body, listed | .doWhile body _, listed => body.declares_eq_nil listed
  | .block _, _ | .returnsUnit, _ | .returns _, _ | .breakLoop, _ | .continueLoop, _ | .print _, _
  | .expression _, _ => rfl

variable {listed : Prop}

mutual

/-- What is bound without findings is tidy. -/
theorem Statement.Binds.tidy {s : Statement} {expected b b' s' inList} :
    s.Binds b s' b' → (listed → s.declaresInLists inList = true) → b'.found = [] →
      (s'.checkPaths expected).2 = [] → s'.Tidy listed
  | .function _ _ _ body, listed, clean, _ => by
    obtain ⟨found, returns, ok⟩ := leaveFunction_clean clean
    obtain ⟨paths, status⟩ := Bound.checkBody_eq returns ok
    have inner := fun all => (Bool.and_eq_true_iff.mp (listed all)).2
    refine .function (body.tidy inner found paths) ?_
    rcases status with ⟨ends, valid⟩ | ⟨runs, _, inserted⟩
    · rw [valid]
      exact iff_of_false (by decide) (not_not_intro ends)
    · rw [inserted]
      exact iff_of_true (by decide) runs
  | .declare .., _, _, _ => .declare
  | .ifThen _ yes, listed, clean, paths => by
    have found := (found_note_eq_nil.mp clean).2
    exact .ifThen (yes.tidy listed found paths) (yes.declares_eq_nil ∘ listed)
  | .ifElse _ yes no, listed, clean, paths => by
    have found := (found_note_eq_nil.mp clean).2
    have first := fun all => (Bool.and_eq_true_iff.mp (listed all)).1
    have second := fun all => (Bool.and_eq_true_iff.mp (listed all)).2
    obtain ⟨one, two⟩ := List.append_eq_nil_iff.mp paths
    exact .ifElse (yes.tidy first (no.grows.clean found) one) (yes.declares_eq_nil ∘ first)
      (no.tidy second found two) (no.declares_eq_nil ∘ second)
  | .whileLoop _ body, listed, clean, paths => by
    have found := (found_note_eq_nil.mp clean).2
    exact .whileLoop (body.tidy listed found paths) (body.declares_eq_nil ∘ listed)
  | .doWhile body condition, listed, clean, paths => by
    obtain ⟨_, rfl⟩ := bindExpression_eq condition
    have found := (found_note_eq_nil.mp (found_note_eq_nil.mp clean).2).2
    exact .doWhile (body.tidy listed found paths) (body.declares_eq_nil ∘ listed)
  | .block statements, listed, clean, paths => .block (statements.tidy listed clean paths)
  | .returnsUnit, _, _, _ | .returns _, _, _, _ => .returns
  | .breakLoop, _, _, _ => .breakLoop
  | .continueLoop, _, _, _ => .continueLoop
  | .print _, _, _, _ => .print
  | .expression _, _, _, _ => .expression

theorem BindsList.tidy {expected statements b b' bound behind} :
    BindsList statements b bound b' → (listed → allDeclareInLists statements = true) →
      b'.found = [] → (Bound.checkPathsOfList expected behind [] bound).2 = [] →
      Bound.TidyList listed bound
  | .nil, _, _, _ => .nil
  | .cons first others, listed, clean, paths => by
    have one := fun all => (Bool.and_eq_true_iff.mp (listed all)).1
    have rest := fun all => (Bool.and_eq_true_iff.mp (listed all)).2
    obtain ⟨_, head, tail⟩ := Bound.checkPathsOfList_cons_eq_nil paths
    exact .cons (first.tidy one (others.grows.clean clean) head)
      (Bound.rest_eq_nil_of_ends tail) (others.tidy rest clean tail)

end

end Bindery
