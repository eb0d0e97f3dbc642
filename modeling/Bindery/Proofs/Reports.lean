import Bindery.Proofs.ReturnReports

/-!
What a binder reports.

Whatever a binder has gone through before, each diagnostic that it reports has the arguments of its
problem, points at a span and is not in a file yet (`Diagnostic.Regular`,
`Binder.reports_bindFile`).
-/

namespace Bindery

def AllRegular (findings : List Finding) : Prop := ∀ d ∈ problemsIn findings, d.Regular

namespace AllRegular

variable {findings : List Finding}

theorem nil : AllRegular [] := fun _ mem => absurd mem List.not_mem_nil

theorem append {first second : List Finding} (left : AllRegular first)
    (right : AllRegular second) : AllRegular (first ++ second) := by
  rw [AllRegular, problemsIn_append, List.forall_mem_append]
  exact ⟨left, right⟩

theorem of_mem (regular : ∀ d, .problem d ∈ findings → d.Regular) : AllRegular findings := by
  intro d mem
  obtain ⟨f, inside, same⟩ := List.mem_filterMap.mp mem
  cases f with
  | problem =>
    cases same
    exact regular d inside
  | dangling => cases same

theorem within {low high : Nat} (h : Finding.All (Finding.Within low high) findings) :
    AllRegular findings :=
  .of_mem fun _ mem => (h _ mem).regular

/-- What an expression is reported with is regular. -/
theorem bind (env : Environment) (e : Expression) : AllRegular (e.bind env).2 :=
  .of_mem fun _ mem => (e.bind_finds env _ mem).regular

end AllRegular

/-! ### Statements -/

def Binder.ReportsRegular (b b' : Binder) : Prop :=
  ∃ findings, b'.found = findings.reverse ++ b.found ∧ AllRegular findings

namespace Binder.ReportsRegular

variable {b b' b'' : Binder}

theorem refl (b : Binder) : b.ReportsRegular b := ⟨[], rfl, .nil⟩

theorem trans (first : b.ReportsRegular b') (second : b'.ReportsRegular b'') :
    b.ReportsRegular b'' := by
  obtain ⟨findings, found, regular⟩ := first
  obtain ⟨others, later, regular'⟩ := second
  refine ⟨findings ++ others, ?_, regular.append regular'⟩
  rw [later, found, List.reverse_append, List.append_assoc]

/-- Names and jumps do not matter for what is reported. -/
theorem of_found (h : b.ReportsRegular b') (same : b''.found = b'.found) :
    b.ReportsRegular b'' := by
  obtain ⟨findings, found, regular⟩ := h
  exact ⟨findings, same.trans found, regular⟩

theorem note {findings : List Finding} (h : b.ReportsRegular b') (regular : AllRegular findings) :
    b.ReportsRegular (b'.note findings) :=
  h.trans ⟨findings, found_note b' findings, regular⟩

theorem popJump (h : b.ReportsRegular b') : b.ReportsRegular b'.popJump := h.of_found rfl

theorem declareNew (h : b.ReportsRegular b') (symbol : Symbol) (taken : Bool) (name : Identifier)
    (id : SymbolId) : b.ReportsRegular ((b'.alloc symbol).declare taken name id) :=
  h.of_found (declare_found ..)

theorem notes {low high : Nat} (h : b.Notes (Finding.Within low high) b') :
    b.ReportsRegular b' := by
  obtain ⟨findings, found, within⟩ := h
  exact ⟨findings, found, .within within⟩

theorem bindExpression {e : Expression} {e' : Bound.Expression}
    (run : b.bindExpression e = (e', b')) : b.ReportsRegular b' := by
  obtain ⟨_, rfl⟩ := bindExpression_eq run
  exact (refl b).note (.bind _ e)

end Binder.ReportsRegular

open Binder

mutual

/-- Every diagnostic that a statement adds is regular. -/
theorem Statement.Binds.reports {s : Statement} {b b' s'} :
    s.Binds b s' b' → b.ReportsRegular b'
  | .function redeclared parameters typed body => by
    have outside := (ReportsRegular.notes (.checkRedeclared redeclared)).trans
      ((ReportsRegular.notes (.bindParameters parameters)).trans (.notes (.bindType? typed)))
    exact ((outside.of_found (found_enterFunction ..)).trans body.reports).trans
      (.notes (.leaveFunction _ _ _ _))
  | .declare redeclared typed value => by
    have bound := (ReportsRegular.notes (.checkRedeclared redeclared)).trans
      ((ReportsRegular.notes (.bindType? typed)).trans (.bindExpression value))
    exact (bound.declareNew _ _ _ _).note (.within (.checkAssignable _ _))
  | .ifThen condition yes =>
    ((ReportsRegular.bindExpression condition).trans yes.reports).note (.within (.checkCondition _))
  | .ifElse condition yes no =>
    ((ReportsRegular.bindExpression condition).trans (yes.reports.trans no.reports)).note
      (.within (.checkCondition _))
  | .whileLoop condition body =>
    (((ReportsRegular.bindExpression condition).trans body.reports).of_found rfl).note
      (.within (.checkCondition _))
  | .doWhile body condition =>
    (body.reports.popJump.trans (.bindExpression condition)).note (.within (.checkCondition _))
  | .block statements => statements.reports.of_found rfl
  | .returnsUnit => .refl _
  | .returns value | .print value | .expression value => .bindExpression value
  | .breakLoop | .continueLoop => .notes (.checkJump _ _)

theorem BindsList.reports {statements b b' bound} :
    BindsList statements b bound b' → b.ReportsRegular b'
  | .nil => .refl _
  | .cons first others => first.reports.trans others.reports

end

/-! ### Files -/

/-- Every diagnostic that a file adds is regular. -/
theorem Binder.reports_bindFile (b : Binder) (file : SourceFile) :
    b.ReportsRegular (b.bindFile file).2 := by
  obtain ⟨_, _, run⟩ := bindsList [] file.statements b
  have checked := run.reports.note (.within (.problems
    (Bound.within_checkBody .unit (bindList [] file.statements b).1)))
  exact checked.of_found rfl

/-- The diagnostics of a file behind those that were there before are regular. -/
theorem Binder.diagnostics_bindFile (b : Binder) (file : SourceFile) :
    ∃ reported, (b.bindFile file).2.diagnostics = b.diagnostics ++ reported ∧
      ∀ d ∈ reported, d.Regular := by
  obtain ⟨findings, found, regular⟩ := b.reports_bindFile file
  refine ⟨problemsIn findings, ?_, regular⟩
  rw [Binder.diagnostics, found, List.reverse_append, List.reverse_reverse]
  exact problemsIn_append ..

theorem SourceFile.regular_of_mem_bind {file : SourceFile} {d : Diagnostic}
    (mem : d ∈ file.bind.2) : d.Regular := by
  obtain ⟨reported, all, regular⟩ := Binder.new.diagnostics_bindFile file
  have same : file.bind.2 = Binder.new.diagnostics ++ reported := all
  rw [same] at mem
  exact regular d mem

end Bindery
