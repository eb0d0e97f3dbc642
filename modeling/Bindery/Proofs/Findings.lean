import Bindery.Proofs.ExpressionBinding
import Bindery.Proofs.Returns

/-!
What can be found.

Every problem is reported with arguments of its own kind: a name, texts of types, tokens, numbers or
nothing (`Problem.Takes`). Unknown names have the code 2001 and repeated ones 2002, and the codes
from 2303 on are about returns. So it matters between which codes a problem is
(`Diagnostic.Within`): what is checked beside names and returns, what the check of return paths
complains about and what can be found in an expression (`Expression.bind_finds`).
-/

namespace Bindery

def Problem.Takes : Problem → List String → Prop
  | .unknownName, arguments | .redeclaredName, arguments | .unknownType, arguments
  | .duplicateParameter, arguments | .readOnlyTarget, arguments
  | .jumpOutsideLoop, arguments | .jumpAcrossFunction, arguments => ∃ name, arguments = [name]
  | .notAssignable, arguments | .argumentNotAssignable, arguments | .wrongReturnType, arguments =>
    ∃ source target : Ty, arguments = [source.text, target.text] ∧
      source.assignableTo target = false
  | .undefinedBinary, arguments =>
    ∃ (operator : BinaryOperator) (left right : Ty),
      arguments = [operator.token, left.text, right.text]
  | .undefinedUnary, arguments =>
    ∃ (operator : UnaryOperator) (operand : Ty), arguments = [operator.token, operand.text]
  | .conditionNotBoolean, arguments | .notCallable, arguments | .valueExpected, arguments
  | .missingReturn, arguments => ∃ ty : Ty, arguments = [ty.text]
  | .wrongArgumentCount, arguments =>
    ∃ expected actual : Nat, arguments = [toString expected, toString actual]
  | .invalidTarget, arguments | .unreached, arguments => arguments = []

/-- A diagnostic as it is reported. -/
structure Diagnostic.Regular (d : Diagnostic) : Prop where
  file : d.file = none
  span : ∃ span, d.span = some span
  arguments : d.problem.Takes d.arguments

variable {span : Span} {problem : Problem} {arguments : List String} {env : Environment}

/-- A problem is reported with arguments of its own kind. -/
theorem Diagnostic.regular_on (takes : problem.Takes arguments) :
    (Diagnostic.on span problem arguments).Regular :=
  ⟨rfl, ⟨span, rfl⟩, takes⟩

/-- A diagnostic as it is reported, with a code between two bounds. -/
structure Diagnostic.Within (low high : Nat) (d : Diagnostic) : Prop where
  regular : d.Regular
  above : low < d.code
  below : d.code < high

theorem Diagnostic.Within.on {low high : Nat} {span : Span} {problem : Problem}
    {arguments : List String} (takes : problem.Takes arguments)
    (above : low < problem.code := by decide) (below : problem.code < high := by decide) :
    (Diagnostic.on span problem arguments).Within low high :=
  ⟨regular_on takes, above, below⟩

namespace Finding

def Within (low high : Nat) : Finding → Prop
  | .problem d => d.Within low high
  | .dangling _ => False

def All (P : Finding → Prop) (findings : List Finding) : Prop := ∀ f ∈ findings, P f

namespace All

variable {P Q : Finding → Prop} {first second : List Finding} {low high : Nat}

theorem nil : All P [] := List.forall_mem_nil P

theorem append (left : All P first) (right : All P second) : All P (first ++ second) :=
  List.forall_mem_append.mpr ⟨left, right⟩

theorem ite {c : Prop} [Decidable c] (left : All P first) (right : All P second) :
    All P (if c then first else second) := by
  split
  · exact left
  · exact right

theorem mono (h : All P first) (imp : ∀ f, P f → Q f) : All Q first := fun f mem =>
  imp f (h f mem)

theorem on {span : Span} {problem : Problem} {arguments : List String}
    (takes : problem.Takes arguments) (above : low < problem.code := by decide)
    (below : problem.code < high := by decide) :
    All (Within low high) [.on span problem arguments] :=
  List.forall_mem_singleton.mpr (Diagnostic.Within.on takes above below)

theorem problems {diagnostics : List Diagnostic} (h : ∀ d ∈ diagnostics, d.Within low high) :
    All (Within low high) (diagnostics.map .problem) :=
  List.forall_mem_map.mpr h

/-- What is checked beside names and returns lies between their codes. -/
theorem checkAssignable (value : Bound.Expression) (target : Ty) :
    All (Within 2002 2303) (checkAssignable value target) := by
  unfold Bindery.checkAssignable
  split
  · exact .nil
  · exact .on ⟨_, target, rfl, Bool.eq_false_iff.mpr ‹_›⟩

theorem checkCondition (condition : Bound.Expression) :
    All (Within 2002 2303) (checkCondition condition) :=
  .ite .nil (.on ⟨_, rfl⟩)

theorem checkArgumentCount (span : Span) (expected actual : Nat) :
    All (Within 2002 2303) (checkArgumentCount span expected actual) :=
  .ite .nil (.on ⟨expected, actual, rfl⟩)

theorem checkArguments : ∀ (arguments : List Bound.Expression) (parameters : List Ty),
    All (Within 2002 2303) (checkArguments arguments parameters)
  | [], _ | _ :: _, [] => .nil
  | _ :: arguments, parameter :: parameters => by
    refine .append ?_ (checkArguments arguments parameters)
    split
    · exact .nil
    · exact .on ⟨_, parameter, rfl, Bool.eq_false_iff.mpr ‹_›⟩

end All

end Finding

/-! ### Expressions -/

/-- What can be found in an expression: a problem that is not about returns, or a name that stands
for a position outside of the table. -/
def Environment.Finds (env : Environment) : Finding → Prop
  | .problem d => d.Within 2000 2303
  | .dangling id => env.symbols.size ≤ id ∧ ∃ name, env.scopes.get? name = some id

/-- What is checked beside names may be found anywhere. -/
theorem Finding.All.finds {findings : List Finding} {low : Nat} (h : All (Within low 2303) findings)
    (above : 2000 ≤ low := by decide) : All env.Finds findings := by
  refine h.mono fun f within => ?_
  cases f with
  | problem => exact ⟨within.regular, Nat.lt_of_le_of_lt above within.above, within.below⟩
  | dangling => exact within.elim

theorem Finding.All.finds_on (takes : problem.Takes arguments)
    (above : 2000 < problem.code := by decide) (below : problem.code < 2303 := by decide) :
    All env.Finds [.on span problem arguments] :=
  (All.on takes above below).finds

mutual

/-- What can be found in an expression. -/
theorem Expression.bind_finds (env : Environment) :
    ∀ e : Expression, Finding.All env.Finds (e.bind env).2
  | .literal .. => .nil
  | .reference name => by
    rw [Expression.bind, bindReference]
    split
    · exact .nil
    · split
      · exact .finds_on ⟨_, rfl⟩
      · rename_i id seen
        split
        · rename_i missing
          exact List.forall_mem_singleton.mpr
            ⟨Array.getElem?_eq_none_iff.mp missing, name.name, seen⟩
        · exact .nil
  | .assignment target value _ => by
    have first := target.bind_finds env
    have second := value.bind_finds env
    rw [Expression.bind]
    simp only
    split
    · refine ((first.append ?_).append second).append (Finding.All.checkAssignable _ _).finds
      exact .ite (.finds_on ⟨_, rfl⟩) .nil
    · exact (first.append second).append (.ite .nil (.finds_on rfl))
  | .binary left operator _ right _ => by
    have both := (left.bind_finds env).append (right.bind_finds env)
    rw [Expression.bind]
    split
    · exact both
    · split
      · exact both
      · exact both.append (.finds_on ⟨operator, _, _, rfl⟩)
  | .unary operator _ operand _ => by
    have inner := operand.bind_finds env
    rw [Expression.bind]
    split
    · exact inner
    · split
      · exact inner
      · exact inner.append (.finds_on ⟨operator, _, rfl⟩)
  | .parenthesized inner _ => inner.bind_finds env
  | .call target arguments .. => by
    have parts := (target.bind_finds env).append (bindArguments_finds env arguments)
    rw [Expression.bind]
    simp only
    split
    · exact (parts.append (Finding.All.checkArgumentCount _ _ _).finds).append
        (Finding.All.checkArguments _ _).finds
    · exact parts.append (.ite .nil (.finds_on ⟨_, rfl⟩))
  | .ternary condition yes no _ =>
    (((condition.bind_finds env).append (yes.bind_finds env)).append
      (no.bind_finds env)).append (Finding.All.checkCondition _).finds

theorem bindArguments_finds (env : Environment) :
    ∀ arguments : List Expression, Finding.All env.Finds (bindArguments env arguments).2
  | [] => .nil
  | e :: rest => (e.bind_finds env).append (bindArguments_finds env rest)

end

/-! ### Returns -/

namespace Bound

theorem within_checkReturn (expected : Ty) (value : Option Expression) (span : Span) :
    ∀ d ∈ checkReturn expected value span, d.Within 2302 2307 := by
  intro d mem
  unfold checkReturn at mem
  split at mem
  · split at mem
    · cases mem
    · cases List.mem_singleton.mp mem
      exact .on ⟨expected, rfl⟩
  · split at mem
    · cases mem
    · cases List.mem_singleton.mp mem
      exact .on ⟨_, expected, rfl, Bool.eq_false_iff.mpr ‹_›⟩

variable {d : Diagnostic}

mutual

/-- What the check of return paths reports is about returns. -/
theorem Statement.within_checkPaths (expected : Ty) :
    ∀ s : Statement, d ∈ (s.checkPaths expected).2 → d.Within 2302 2307
  | .block statements _, mem => within_checkPathsOfList expected statements false mem
  | .returns .., mem => within_checkReturn _ _ _ _ mem
  | .ifThen _ yes _, mem => yes.within_checkPaths expected mem
  | .ifElse _ yes no _, mem => by
    rcases List.mem_append.mp mem with first | second
    · exact yes.within_checkPaths expected first
    · exact no.within_checkPaths expected second
  | .whileLoop _ body _, mem | .doWhile body .., mem => body.within_checkPaths expected mem

theorem within_checkPathsOfList (expected : Ty) :
    ∀ (statements : List Statement) (behind : Bool),
      d ∈ (checkPathsOfList expected behind [] statements).2 → d.Within 2302 2307
  | [], _, mem => absurd mem List.not_mem_nil
  | s :: rest, behind, mem => by
    rw [checkPathsOfList_cons_snd, List.mem_append, List.mem_append] at mem
    rcases mem with (first | unreached) | others
    · exact s.within_checkPaths expected first
    · cases behind with
      | false => cases unreached
      | true =>
        cases List.mem_singleton.mp unreached
        exact .on rfl
    · exact within_checkPathsOfList expected rest _ others

end

/-- The check of return paths complains about returns alone. -/
theorem within_checkBody (expected : Ty) (body : List Statement) :
    ∀ d ∈ (checkBody expected body).2, d.Within 2302 2307 := fun _ mem =>
  within_checkPathsOfList expected body false mem

end Bound

end Bindery
