import Bindery.Bound.ReturnPath

/-!
What a checked body looks like.

A statement ends when every path through it ends in a jump (`Statement.Ends`); the check
of return paths decides this (`Statement.checkPaths_fst`). A list in which it finds no
problem has nothing behind a statement that ends, and every member of it has no problem
either (`checkPathsOfList_cons_eq_nil`).
-/

namespace Bindery.Bound

/-- Every path through the statement ends in a jump. -/
inductive Statement.Ends : Statement → Prop where
  | returns {value span} : Statement.Ends (.returns value span)
  | breakLoop {span} : Statement.Ends (.breakLoop span)
  | continueLoop {span} : Statement.Ends (.continueLoop span)
  | ifElse {condition yes no span} : yes.Ends → no.Ends →
      Statement.Ends (.ifElse condition yes no span)
  | block {statements span s} : s ∈ statements → s.Ends → Statement.Ends (.block statements span)

def EndsList (statements : List Statement) : Prop := ∃ s ∈ statements, s.Ends

variable {s : Statement} {rest : List Statement} {expected : Ty}

theorem endsList_cons : EndsList (s :: rest) ↔ s.Ends ∨ EndsList rest := by
  simp [EndsList]

theorem not_endsList_nil : ¬ EndsList [] := fun ⟨_, mem, _⟩ => nomatch mem

mutual

/-- The check decides whether a statement ends. -/
theorem Statement.checkPaths_fst (expected : Ty) :
    ∀ s : Statement, (s.checkPaths expected).1 = true ↔ s.Ends
  | .block statements _ => by
    rw [Statement.checkPaths, checkPathsOfList_fst expected statements]
    constructor
    · rintro (behind | ⟨s, mem, ends⟩)
      · cases behind
      · exact .block mem ends
    · rintro (_ | _ | _ | _ | ⟨mem, ends⟩)
      exact .inr ⟨_, mem, ends⟩
  | .returns .. => iff_of_true rfl .returns
  | .breakLoop _ => iff_of_true rfl .breakLoop
  | .continueLoop _ => iff_of_true rfl .continueLoop
  | .ifElse _ yes no _ => by
    rw [Statement.checkPaths]
    simp only [Bool.and_eq_true, yes.checkPaths_fst expected,
      no.checkPaths_fst expected]
    constructor
    · rintro ⟨first, second⟩
      exact .ifElse first second
    · rintro (_ | _ | _ | ⟨first, second⟩)
      exact ⟨first, second⟩
  | .ifThen .. | .whileLoop .. | .doWhile .. | .function .. | .declare .. | .print ..
  | .expression .. => iff_of_false Bool.false_ne_true nofun

theorem checkPathsOfList_fst (expected : Ty) :
    ∀ (statements : List Statement) {behind : Bool} {found : List Diagnostic},
      (checkPathsOfList expected behind found statements).1 = true ↔
        behind = true ∨ EndsList statements
  | [], _, _ => by
    rw [checkPathsOfList]
    exact ⟨.inl, fun h => h.resolve_right not_endsList_nil⟩
  | s :: rest, _, _ => by
    rw [checkPathsOfList, checkPathsOfList_fst expected rest, Bool.or_eq_true,
      s.checkPaths_fst expected, endsList_cons, or_assoc]

end

instance (s : Statement) : Decidable s.Ends := decidable_of_iff _ (s.checkPaths_fst .unit)

/-- The check of a list says whether it ends. -/
theorem checkList_fst {statements : List Statement} :
    (checkList expected statements).1 = true ↔ EndsList statements := by
  rw [checkList, checkPathsOfList_fst]
  exact ⟨fun h => h.resolve_left Bool.false_ne_true, .inr⟩

/-- A list has the problems of its first statement, that it is behind a final one, and those of the
others. -/
theorem checkPathsOfList_cons_snd (expected : Ty) (behind : Bool) (s : Statement)
    (rest : List Statement) :
    (checkPathsOfList expected behind [] (s :: rest)).2 =
      (s.checkPaths expected).2 ++ (if behind then [.on s.span .unreached []] else []) ++
        (checkPathsOfList expected (behind || (s.checkPaths expected).1) [] rest).2 := by
  rw [checkPathsOfList, checkPathsOfList_eq]
  cases behind <;> simp [List.reverseAux_eq]

/-- Where a list has no problems, neither has its first statement, and nothing stands
behind that statement if it ends. -/
theorem checkPathsOfList_cons_eq_nil {behind : Bool}
    (clean : (checkPathsOfList expected behind [] (s :: rest)).2 = []) :
    behind = false ∧ (s.checkPaths expected).2 = [] ∧
      (checkPathsOfList expected (s.checkPaths expected).1 [] rest).2 = [] := by
  rw [checkPathsOfList, checkPathsOfList_eq] at clean
  obtain ⟨first, others⟩ := List.append_eq_nil_iff.mp clean
  cases behind with
  | true => simp at first
  | false => exact ⟨rfl, by simpa [List.reverseAux_eq] using first, others⟩

/-- Nothing stands behind a statement that ends. -/
theorem rest_eq_nil_of_ends
    (clean : (checkPathsOfList expected (s.checkPaths expected).1 [] rest).2 = []) (ends : s.Ends) :
    rest = [] := by
  cases rest with
  | nil => rfl
  | cons =>
    have running := (checkPathsOfList_cons_eq_nil clean).1
    rw [(s.checkPaths_fst expected).mpr ends] at running
    cases running

/-- What the check of a body says: all of it is in order, and it ends, or its end may be
reached and a return is added there. -/
theorem checkBody_eq {body : List Statement} (clean : (checkBody expected body).2 = [])
    (ok : (checkBody expected body).1.isOk = true) :
    (checkPathsOfList expected false [] body).2 = [] ∧
      ((EndsList body ∧ (checkBody expected body).1 = .valid) ∨
        (¬ EndsList body ∧ expected.needsNoValue = true ∧
          (checkBody expected body).1 = .mustBeInserted)) := by
  refine ⟨clean, ?_⟩
  unfold checkBody at ok ⊢
  simp only at ok ⊢
  split at ok
  · rename_i ends
    exact .inl ⟨checkList_fst.mp ends, if_pos ends⟩
  · rename_i runs
    split at ok
    · rename_i unit
      exact .inr ⟨mt checkList_fst.mpr runs, unit, by rw [if_neg runs, if_pos unit]⟩
    · cases ok

end Bindery.Bound
