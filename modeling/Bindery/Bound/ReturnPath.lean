import Bindery.Bound
import Bindery.Diagnostic

/-!
Return paths.

A statement is *final* when every path through it ends in a jump: a return, a
break or a continue. The check decides this for a body, compares each return
with the type the body has to return, and reports the statements that stand
behind a final one.
-/

namespace Bindery.Bound

/-- What a check found out about the end of a body. -/
inductive ReturnStatus where
  /-- Some path reaches the end although a value is required. -/
  | mustBeSpecified
  /-- Some path reaches the end, where a return can be added. -/
  | mustBeInserted
  /-- Every path ends in a jump. -/
  | valid
deriving DecidableEq, Repr, Inhabited

namespace ReturnStatus

def all : List ReturnStatus := [.mustBeSpecified, .mustBeInserted, .valid]

def isValid : ReturnStatus → Bool
  | .valid => true
  | _ => false

def isOk : ReturnStatus → Bool
  | .mustBeSpecified => false
  | _ => true

end ReturnStatus

/-- What is wrong with a return in a body that has to return `expected`. -/
def checkReturn (expected : Ty) (value : Option Expression) (span : Span) : List Diagnostic :=
  match value with
  | none =>
    if expected.needsNoValue then [] else [.on span .valueExpected [expected.text]]
  | some e =>
    if e.ty.assignableTo expected then []
    else [.on span .wrongReturnType [e.ty.text, expected.text]]

mutual

/-- Whether a statement is final, and the problems of the returns in it. A loop
is never final, since its body may not run to the end; the body of a function is
checked on its own. -/
def Statement.checkPaths (expected : Ty) : Statement → Bool × List Diagnostic
  | .block statements _ => checkPathsOfList expected false [] statements
  | .returns value span => (true, checkReturn expected value span)
  | .breakLoop _ => (true, [])
  | .continueLoop _ => (true, [])
  | .ifThen _ yes _ => (false, (yes.checkPaths expected).2)
  | .ifElse _ yes no _ =>
    let first := yes.checkPaths expected
    let second := no.checkPaths expected
    (first.1 && second.1, first.2 ++ second.2)
  | .whileLoop _ body _ => (false, (body.checkPaths expected).2)
  | .doWhile body _ _ => (false, (body.checkPaths expected).2)
  | .function .. => (false, [])
  | .declare .. => (false, [])
  | .print .. => (false, [])
  | .expression .. => (false, [])

/-- The check of a statement list. `behind` says that a final statement stands
before it: each of its statements is checked, then reported. `found` holds the
problems found before it, the newest first. -/
def checkPathsOfList (expected : Ty) (behind : Bool) (found : List Diagnostic) :
    List Statement → Bool × List Diagnostic
  | [] => (behind, found.reverse)
  | s :: rest =>
    let head := s.checkPaths expected
    let found := head.2.reverseAux found
    checkPathsOfList expected (behind || head.1)
      (if behind then .on s.span .unreached [] :: found else found) rest

end

def checkList (expected : Ty) (statements : List Statement) : Bool × List Diagnostic :=
  checkPathsOfList expected false [] statements

/-- What was found before a list only stands in front of what is found in it. -/
theorem checkPathsOfList_eq (expected : Ty) (behind : Bool) (found : List Diagnostic)
    (statements : List Statement) :
    checkPathsOfList expected behind found statements =
      ((checkPathsOfList expected behind [] statements).1,
        found.reverse ++ (checkPathsOfList expected behind [] statements).2) := by
  induction statements generalizing behind found with
  | nil => simp [checkPathsOfList]
  | cons s rest ih =>
    simp only [checkPathsOfList]
    rw [ih, ih _ (if behind = true then _ else _)]
    cases behind <;> simp [List.reverseAux_eq]

/-- The check of a body that has to return `expected`. -/
def checkBody (expected : Ty) (body : List Statement) : ReturnStatus × List Diagnostic :=
  let result := checkList expected body
  (if result.1 then .valid
    else if expected.needsNoValue then .mustBeInserted
    else .mustBeSpecified, result.2)

end Bindery.Bound
