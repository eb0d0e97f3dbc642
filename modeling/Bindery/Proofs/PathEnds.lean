import Bindery.Proofs.Paths

/-!
How paths end, and where they never come.

No path completes a statement that ends (`Statement.Ends.not_done`). A loop that tests its
condition last may run a body that ends and is not said to end; in statements without such
loops, whatever does not end is completed by some path (`Statement.exists_done`). The check of
return paths reports the statements behind one that ends. `Statement.unreached` gives their
positions, and no path comes to any of them (`Statement.not_visits_of_mem_unreached`).
-/

namespace Bindery.Bound

/-! ### Paths that complete -/

mutual

/-- Some path leads through every expression. -/
theorem Expression.exists_evaluates : ∀ x : Expression, ∃ events, x.Evaluates events
  | .literal .. => ⟨_, .literal⟩
  | .reference .. => ⟨_, .reference⟩
  | .assignment _ value .. => by
    obtain ⟨_, run⟩ := value.exists_evaluates
    exact ⟨_, .assignment run⟩
  | .binary op left right .. => by
    obtain ⟨_, first⟩ := left.exists_evaluates
    obtain ⟨_, second⟩ := right.exists_evaluates
    by_cases joins : op = .concat
    · subst joins
      exact ⟨_, .concat second first⟩
    · exact ⟨_, .binary joins first second⟩
  | .unary _ operand .. => by
    obtain ⟨_, run⟩ := operand.exists_evaluates
    exact ⟨_, .unary run⟩
  | .parenthesized inner _ => by
    obtain ⟨_, run⟩ := inner.exists_evaluates
    exact ⟨_, .parenthesized run⟩
  | .call target arguments .. => by
    obtain ⟨_, first⟩ := exists_evaluatesAll arguments
    obtain ⟨_, second⟩ := target.exists_evaluates
    exact ⟨_, .call first second⟩
  | .ternary condition yes .. => by
    obtain ⟨_, test⟩ := condition.exists_evaluates
    obtain ⟨_, branch⟩ := yes.exists_evaluates
    exact ⟨_, .ternaryYes test branch⟩
  | .error _ => ⟨_, .error⟩

theorem exists_evaluatesAll : ∀ arguments : List Expression, ∃ events, EvaluatesAll arguments events
  | [] => ⟨_, .nil⟩
  | x :: rest => by
    obtain ⟨_, first⟩ := x.exists_evaluates
    obtain ⟨_, others⟩ := exists_evaluatesAll rest
    exact ⟨_, .cons first others⟩

end

/-- A path that completes a list completes each of its statements. -/
theorem RunsList.done_of_mem {statements : List Statement} {events : List Event}
    (run : RunsList statements events .done) {s : Statement} (mem : s ∈ statements) :
    ∃ own, s.Runs own .done := by
  induction statements generalizing events with
  | nil => cases mem
  | cons _ _ ih =>
    cases run with
    | next head others =>
      rcases List.mem_cons.mp mem with rfl | later
      · exact ⟨_, head⟩
      · exact ih others later
    | stop _ leaves => exact absurd rfl leaves

/-- No path completes a statement that ends. -/
theorem Statement.Ends.not_done {s : Statement} (ends : s.Ends) {events : List Event} :
    ¬ s.Runs events .done := by
  induction ends generalizing events with
  | returns | breakLoop | continueLoop => rintro ⟨⟩
  | ifElse _ _ first second =>
    intro run
    cases run with
    | ifElseYes _ taken => exact first taken
    | ifElseNo _ taken => exact second taken
  | block mem _ ih =>
    intro run
    cases run with
    | block inner =>
      obtain ⟨_, completed⟩ := inner.done_of_mem mem
      exact ih completed

theorem EndsList.not_done {statements : List Statement} (ends : EndsList statements)
    {events : List Event} : ¬ RunsList statements events .done := by
  intro run
  obtain ⟨s, mem, final⟩ := ends
  obtain ⟨_, completed⟩ := run.done_of_mem mem
  exact final.not_done completed

mutual

/-- Some loop of the statement tests its condition last. The bodies of functions do not count. -/
def Statement.hasDoWhile : Statement → Bool
  | .ifThen _ yes _ => yes.hasDoWhile
  | .ifElse _ yes no _ => yes.hasDoWhile || no.hasDoWhile
  | .whileLoop _ body _ => body.hasDoWhile
  | .doWhile .. => true
  | .block statements _ => hasDoWhileList statements
  | .function .. => false
  | .declare .. => false
  | .returns .. => false
  | .breakLoop _ => false
  | .continueLoop _ => false
  | .print .. => false
  | .expression .. => false

def hasDoWhileList : List Statement → Bool
  | [] => false
  | s :: rest => s.hasDoWhile || hasDoWhileList rest

end

mutual

/-- Where no loop tests its condition last, a statement that does not end can be completed. -/
theorem Statement.exists_done : ∀ s : Statement, s.hasDoWhile = false → ¬ s.Ends →
    ∃ events, s.Runs events .done
  | .function .., _, _ => ⟨_, .function⟩
  | .declare _ value _, _, _ => by
    obtain ⟨_, run⟩ := value.exists_evaluates
    exact ⟨_, .declare run⟩
  | .ifThen condition .., _, _ => by
    obtain ⟨_, test⟩ := condition.exists_evaluates
    exact ⟨_, .ifThenPassed test⟩
  | .ifElse condition yes no _, plain, runs => by
    obtain ⟨plainYes, plainNo⟩ := Bool.or_eq_false_iff.mp plain
    obtain ⟨_, test⟩ := condition.exists_evaluates
    by_cases ends : yes.Ends
    · obtain ⟨_, branch⟩ := no.exists_done plainNo fun final => runs (.ifElse ends final)
      exact ⟨_, .ifElseNo test branch⟩
    · obtain ⟨_, branch⟩ := yes.exists_done plainYes ends
      exact ⟨_, .ifElseYes test branch⟩
  -- The body does not matter: the condition may fail at once, unlike that of a `doWhile`.
  | .whileLoop condition .., _, _ => by
    obtain ⟨_, test⟩ := condition.exists_evaluates
    exact ⟨_, .whilePassed test⟩
  | .doWhile .., plain, _ => by cases plain
  | .block statements _, plain, runs => by
    obtain ⟨_, inner⟩ := exists_done_list statements plain fun ⟨_, mem, final⟩ =>
      runs (.block mem final)
    exact ⟨_, .block inner⟩
  | .returns .., _, runs => absurd .returns runs
  | .breakLoop _, _, runs => absurd .breakLoop runs
  | .continueLoop _, _, runs => absurd .continueLoop runs
  | .print value _, _, _ => by
    obtain ⟨_, run⟩ := value.exists_evaluates
    exact ⟨_, .print run⟩
  | .expression value _, _, _ => by
    obtain ⟨_, run⟩ := value.exists_evaluates
    exact ⟨_, .expression run⟩

theorem exists_done_list : ∀ statements : List Statement, hasDoWhileList statements = false →
    ¬ EndsList statements → ∃ events, RunsList statements events .done
  | [], _, _ => ⟨_, .nil⟩
  | s :: rest, plain, runs => by
    obtain ⟨plainHead, plainRest⟩ := Bool.or_eq_false_iff.mp plain
    rw [endsList_cons, not_or] at runs
    obtain ⟨_, first⟩ := s.exists_done plainHead runs.1
    obtain ⟨_, others⟩ := exists_done_list rest plainRest runs.2
    exact ⟨_, .next first others⟩

end

/-! ### Positions -/

/-- Where a statement stands, seen from a statement or a list around it: the number of the part
that it is in, and where it stands in there. A branch and the body of a loop are numbered from
0, and so are the statements of a list. -/
abbrev Position := List Nat

mutual

/-- The statement at a position. What is inside a function has none. -/
def Statement.at? : Statement → Position → Option Statement
  | s, [] => some s
  | .ifThen _ yes _, 0 :: p => yes.at? p
  | .ifElse _ yes .., 0 :: p => yes.at? p
  | .ifElse _ _ no _, 1 :: p => no.at? p
  | .whileLoop _ body _, 0 :: p => body.at? p
  | .doWhile body .., 0 :: p => body.at? p
  | .block statements _, p => statementAt? statements p
  | _, _ => none

def statementAt? : List Statement → Position → Option Statement
  | s :: _, 0 :: p => s.at? p
  | _ :: rest, (i + 1) :: p => statementAt? rest (i :: p)
  | _, _ => none

end

mutual

/-- `s.Visits p`: some path from the start of `s` comes to the start of the statement at `p`. -/
inductive Statement.Visits : Statement → Position → Prop where
  | here {s} : Statement.Visits s []
  | ifThen {condition yes span test p} : condition.Evaluates test → yes.Visits p →
      Statement.Visits (.ifThen condition yes span) (0 :: p)
  | ifElseYes {condition yes no span test p} : condition.Evaluates test → yes.Visits p →
      Statement.Visits (.ifElse condition yes no span) (0 :: p)
  | ifElseNo {condition yes no span test p} : condition.Evaluates test → no.Visits p →
      Statement.Visits (.ifElse condition yes no span) (1 :: p)
  | whileEntered {condition body span test p} : condition.Evaluates test → body.Visits p →
      Statement.Visits (.whileLoop condition body span) (0 :: p)
  | whileRepeated {condition body span test events out p} : condition.Evaluates test →
      body.Runs events out → out.repeats = true →
      Statement.Visits (.whileLoop condition body span) p →
      Statement.Visits (.whileLoop condition body span) p
  | doEntered {body condition span p} : body.Visits p →
      Statement.Visits (.doWhile body condition span) (0 :: p)
  | doRepeated {body condition span events out test p} : body.Runs events out →
      out.repeats = true → condition.Evaluates test →
      Statement.Visits (.doWhile body condition span) p →
      Statement.Visits (.doWhile body condition span) p
  | block {statements span p} : VisitsList statements p →
      Statement.Visits (.block statements span) p

/-- A path comes to a statement of a list once those before it are completed. -/
inductive VisitsList : List Statement → Position → Prop where
  | head {s rest p} : s.Visits p → VisitsList (s :: rest) (0 :: p)
  | next {s rest events i p} : s.Runs events .done → VisitsList rest (i :: p) →
      VisitsList (s :: rest) ((i + 1) :: p)

end

/-! ### What is reported -/

def Position.shift : Position → Position
  | [] => []
  | i :: p => (i + 1) :: p

mutual

/-- The positions of the statements that stand in a list behind one that ends, in the order in
which they are reported. -/
def Statement.unreached : Statement → List Position
  | .ifThen _ yes _ => yes.unreached.map (0 :: ·)
  | .ifElse _ yes no _ => yes.unreached.map (0 :: ·) ++ no.unreached.map (1 :: ·)
  | .whileLoop _ body _ => body.unreached.map (0 :: ·)
  | .doWhile body .. => body.unreached.map (0 :: ·)
  | .block statements _ => unreachedList false statements
  | .function .. => []
  | .declare .. => []
  | .returns .. => []
  | .breakLoop _ => []
  | .continueLoop _ => []
  | .print .. => []
  | .expression .. => []

/-- The same for a list; `behind` says that a statement that ends stands before it. -/
def unreachedList (behind : Bool) : List Statement → List Position
  | [] => []
  | s :: rest =>
    s.unreached.map (0 :: ·) ++ (if behind then [[0]] else []) ++
      (unreachedList (behind || s.Ends) rest).map Position.shift

end

def reportAt (at? : Position → Option Statement) (p : Position) : Option Diagnostic :=
  (at? p).map fun s => .on s.span .unreached []

theorem reportAt_shift (s : Statement) (rest : List Statement) (p : Position) :
    reportAt (statementAt? (s :: rest)) p.shift = reportAt (statementAt? rest) p := by
  cases p <;> simp [reportAt, Position.shift, statementAt?]

theorem ne_nil_of_mem_unreachedList {statements : List Statement} {behind : Bool} {p : Position}
    (mem : p ∈ unreachedList behind statements) : p ≠ [] := by
  induction statements generalizing behind p with
  | nil => cases mem
  | cons _ _ ih =>
    simp only [unreachedList, List.mem_append, List.mem_map] at mem
    rcases mem with (⟨_, _, rfl⟩ | first) | ⟨q, later, rfl⟩
    · exact List.cons_ne_nil _ _
    · split at first
      · cases List.mem_singleton.mp first
        exact List.cons_ne_nil _ _
      · cases first
    · cases q with
      | nil => exact absurd rfl (ih later)
      | cons => exact List.cons_ne_nil _ _

theorem filter_checkReturn (expected : Ty) (value : Option Expression) (span : Span) :
    (checkReturn expected value span).filter (·.code = 2305) = [] := by
  unfold checkReturn
  split <;> split <;> rfl

mutual

/-- The statements that the check reports as unreached are those at the positions. -/
theorem Statement.filter_checkPaths (expected : Ty) : ∀ s : Statement,
    ((s.checkPaths expected).2.filter (·.code = 2305)).map some = s.unreached.map (reportAt s.at?)
  | .block statements _ => by
    rw [Statement.checkPaths, filter_checkPathsOfList expected statements, Statement.unreached]
    refine List.map_congr_left fun p mem => ?_
    cases p with
    | nil => exact absurd rfl (ne_nil_of_mem_unreachedList mem)
    | cons => simp only [reportAt, Statement.at?]
  | .returns .. => by
    rw [Statement.checkPaths, filter_checkReturn]
    rfl
  | .ifElse _ yes no _ => by
    rw [Statement.checkPaths, List.filter_append, List.map_append,
      yes.filter_checkPaths expected, no.filter_checkPaths expected, Statement.unreached,
      List.map_append, List.map_map, List.map_map]
    rfl
  | .ifThen _ inner _ | .whileLoop _ inner _ | .doWhile inner _ _ => by
    rw [Statement.checkPaths, inner.filter_checkPaths expected, Statement.unreached, List.map_map]
    rfl
  | .breakLoop _ | .continueLoop _ | .function .. | .declare .. | .print .. | .expression .. => by
    rw [Statement.checkPaths]
    rfl

theorem filter_checkPathsOfList (expected : Ty) : ∀ (statements : List Statement) {behind : Bool},
    ((checkPathsOfList expected behind [] statements).2.filter (·.code = 2305)).map some =
      (unreachedList behind statements).map (reportAt (statementAt? statements))
  | [], _ => rfl
  | s :: rest, behind => by
    have ending : (s.checkPaths expected).1 = decide s.Ends := by
      rw [Bool.eq_iff_iff, s.checkPaths_fst expected, decide_eq_true_iff]
    have here : ((if behind then [Diagnostic.on s.span .unreached []] else []).filter
        (·.code = 2305)).map some =
          (if behind then [[0]] else []).map (reportAt (statementAt? (s :: rest))) := by
      cases behind
      · rfl
      · simp [reportAt, statementAt?, Statement.at?, Diagnostic.code, Diagnostic.on, Problem.code]
    rw [checkPathsOfList_cons_snd, ending, List.filter_append, List.filter_append, List.map_append,
      List.map_append, s.filter_checkPaths expected, here, filter_checkPathsOfList expected rest,
      unreachedList, List.map_append, List.map_append, List.map_map, List.map_map]
    congr 1
    exact List.map_congr_left fun p _ => (reportAt_shift s rest p).symm

end

/-! ### Where no path comes -/

def Statement.loopBody? : Statement → Option Statement
  | .whileLoop _ body _ => some body
  | .doWhile body .. => some body
  | _ => none

/-- However often a loop is repeated, a path comes to nothing in it but the parts of its body. -/
theorem Statement.Visits.of_loop {s : Statement} {p : Position} :
    s.Visits p →
    ∀ {body : Statement} {i : Nat} {q : Position}, s.loopBody? = some body → p = i :: q →
      body.Visits q
  | .whileEntered _ inner, _, _, _, loop, place | .doEntered inner, _, _, _, loop, place => by
    cases loop
    cases place
    exact inner
  | .whileRepeated _ _ _ again, _, _, _, loop, place
  | .doRepeated _ _ _ again, _, _, _, loop, place => again.of_loop loop place

mutual

/-- No path comes to a statement that is reported. -/
theorem Statement.not_visits_of_mem_unreached : ∀ {s : Statement} {p : Position},
    p ∈ s.unreached → ¬ s.Visits p
  | .ifThen _ yes _, _, mem => by
    obtain ⟨q, inner, rfl⟩ := List.mem_map.mp mem
    intro visits
    cases visits with
    | ifThen _ taken => exact yes.not_visits_of_mem_unreached inner taken
  | .ifElse _ yes no _, _, mem => by
    intro visits
    rcases List.mem_append.mp mem with first | second
    · obtain ⟨q, inner, rfl⟩ := List.mem_map.mp first
      cases visits with
      | ifElseYes _ taken => exact yes.not_visits_of_mem_unreached inner taken
    · obtain ⟨q, inner, rfl⟩ := List.mem_map.mp second
      cases visits with
      | ifElseNo _ taken => exact no.not_visits_of_mem_unreached inner taken
  | .whileLoop _ body _, _, mem | .doWhile body .., _, mem => by
    obtain ⟨q, inner, rfl⟩ := List.mem_map.mp mem
    exact fun visits => body.not_visits_of_mem_unreached inner (visits.of_loop rfl rfl)
  | .block .., _, mem => by
    intro visits
    cases visits with
    | here => exact ne_nil_of_mem_unreachedList mem rfl
    | block inner => exact not_visitsList_of_mem_unreachedList mem inner

theorem not_visitsList_of_mem_unreachedList : ∀ {statements : List Statement} {p : Position},
    p ∈ unreachedList false statements → ¬ VisitsList statements p
  | s :: rest, _, mem => by
    intro visits
    rw [unreachedList, if_neg Bool.false_ne_true, List.append_nil, Bool.false_or] at mem
    rcases List.mem_append.mp mem with first | later
    · obtain ⟨q, inner, rfl⟩ := List.mem_map.mp first
      cases visits with
      | head taken => exact s.not_visits_of_mem_unreached inner taken
    · obtain ⟨q, behind, rfl⟩ := List.mem_map.mp later
      cases q with
      | nil => exact ne_nil_of_mem_unreachedList behind rfl
      | cons =>
        cases visits with
        | next completed onward =>
          -- A path that goes on has completed `s`, so that the rest is not behind an end.
          by_cases ends : s.Ends
          · exact ends.not_done completed
          · rw [decide_eq_false ends] at behind
            exact not_visitsList_of_mem_unreachedList behind onward

end

theorem checkBody_eq_valid_iff {expected : Ty} {body : List Statement} :
    (checkBody expected body).1 = .valid ↔ (checkList expected body).1 = true := by
  rw [checkBody]
  cases (checkList expected body).1 with
  | true => simp
  | false => cases expected.needsNoValue <;> simp

/-- The check of return paths against the paths. A list that passes is completed by no path. The
statements reported as unreached are those at the positions of `unreachedList`, and no path from
the start of the list comes to any of them. In a list without loops that test their condition
last, the check misses nothing: what no path completes passes. -/
theorem paths_end_as_checked (expected : Ty) (statements : List Statement) :
    ((checkBody expected statements).1 = .valid ↔ (checkList expected statements).1 = true) ∧
      ((checkList expected statements).1 = true →
        ∀ events out, RunsList statements events out → out ≠ .done) ∧
      ((checkList expected statements).2.filter (·.code = 2305)).map some =
        (unreachedList false statements).map (reportAt (statementAt? statements)) ∧
      (∀ p ∈ unreachedList false statements, ¬ VisitsList statements p) ∧
      (hasDoWhileList statements = false →
        (∀ events out, RunsList statements events out → out ≠ .done) →
        (checkList expected statements).1 = true) := by
  refine ⟨checkBody_eq_valid_iff, fun passed events out run => ?_,
    filter_checkPathsOfList expected statements,
    fun p => not_visitsList_of_mem_unreachedList, fun plain incomplete => ?_⟩
  · rintro rfl
    exact (checkList_fst.mp passed).not_done run
  · refine checkList_fst.mpr (Classical.byContradiction fun runs => ?_)
    obtain ⟨events, completed⟩ := exists_done_list statements plain runs
    exact incomplete events .done completed rfl

/-- A loop whose body is always left, and a block that returns, each with a statement behind what
ends: `while (true) { if (true) break else return; print true } { return } print true`. -/
def leftLoop : List Statement :=
  let yes : Expression := .literal (.boolean true) default
  [.whileLoop yes (.block [.ifElse yes (.breakLoop default) (.returns none default) default,
      .print yes default] default) default,
    .block [.returns none default] default,
    .print yes default]

theorem leftLoop_paths :
    (checkList .unit leftLoop).1 = true ∧ hasDoWhileList leftLoop = false ∧
      ¬ RunsList leftLoop [] .done ∧
      ((checkList .unit leftLoop).2.filter (·.code = 2305)).length = 2 ∧
      ¬ VisitsList leftLoop [0, 0, 1] ∧ ¬ VisitsList leftLoop [2] := by
  obtain ⟨_, sound, reported, avoided, _⟩ := paths_end_as_checked .unit leftLoop
  have positions : unreachedList false leftLoop = [[0, 0, 1], [2]] := by decide +kernel
  have count := congrArg List.length reported
  rw [List.length_map, List.length_map, positions] at count
  rw [positions] at avoided
  exact ⟨by decide +kernel, by decide +kernel, fun run => sound (by decide +kernel) _ _ run rfl,
    count, avoided _ (by decide), avoided _ (by decide)⟩

end Bindery.Bound
