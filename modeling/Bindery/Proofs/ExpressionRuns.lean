import Mathlib.Data.List.Forall2
import Bindery.Proofs.Evaluation
import Bindery.Proofs.ExpressionFlow

/-!
The code of an expression computes its value.

`Code.Computes` says of code that, wherever it stands and whatever lies on the stack, it
leaves the cells as an evaluation does and pushes the value. The operands of a chain compute
one value each, which the tests or the concatenation behind them make the value of the chain
(`Joined.computes`, `computes_concat`). The code depends on the emission only through the
slots of symbols and the indices of constants (`Refers`); given those, it computes what the
expression evaluates to in the cells of its symbols (`Expression.Writes.computes`).
-/

namespace Bindery.Machine

variable {V : Type}

/-! ### Joined values -/

namespace Values

theorem foldl_concat (ops : Values V) (a b : V) (rest : List V) :
    rest.foldl ops.concat (ops.concat a b) = ops.concat a (rest.foldl ops.concat b) := by
  induction rest generalizing b with
  | nil => rfl
  | cons _ _ ih => rw [List.foldl_cons, List.foldl_cons, ops.concat_assoc, ih]

/-- Parts that are joined can be joined. -/
theorem join_append (ops : Values V) {front back : List V} {a b : V}
    (first : ops.join front = some a) (second : ops.join back = some b) :
    ops.join (front ++ back) = some (ops.concat a b) := by
  cases front with
  | nil => cases first
  | cons =>
    cases back with
    | nil => cases second
    | cons =>
      cases first
      cases second
      rw [List.cons_append, join, List.foldl_append, List.foldl_cons, foldl_concat]

end Values

end Bindery.Machine

namespace Bindery.Emit

open Machine (Cells Image Instruction Reaches Values)

variable {code : Code}

/-! ### Code at its place -/

namespace Code

def LaidAt (bytes : List UInt8) (start : Nat) (code : Code) : Prop :=
  ∀ l ∈ Machine.locate start code, Machine.fetch bytes l.offset = some l.instruction

variable {bytes : List UInt8} {start : Nat}

@[simp] theorem laidAt_nil : LaidAt bytes start [] := by
  simp [LaidAt, Machine.locate]

@[simp] theorem laidAt_cons {i : Instruction} {rest : Code} :
    LaidAt bytes start (i :: rest) ↔
      Machine.fetch bytes start = some i ∧ LaidAt bytes (start + i.size) rest := by
  simp [LaidAt, Machine.locate]

@[simp] theorem laidAt_append {a b : Code} :
    LaidAt bytes start (a ++ b) ↔ LaidAt bytes start a ∧ LaidAt bytes (start + a.size) b := by
  induction a generalizing start with
  | nil => simp
  | cons _ _ ih => simp [ih, and_assoc, Nat.add_assoc]

end Code

/-! ### Computations -/

section Computes

variable {V : Type}

/-- A value that depends on the cells, and the cells after it was found. -/
abbrev Evaluation (V : Type) := Cells V → Option (V × Cells V)

/-- Wherever the code stands and whatever lies above the cells, it leaves the cells as the
evaluation does and pushes its value. -/
def Code.Computes (ops : Values V) (image : Image) (code : Code) (f : Evaluation V) : Prop :=
  ∀ ⦃start : Nat⦄ ⦃cells cells' : Cells V⦄ ⦃v : V⦄, code.LaidAt image.code start →
    f cells = some (v, cells') → ∀ values printed,
      Reaches ops image ⟨start, cells.push values, printed⟩
        ⟨start + code.size, cells'.push (v :: values), printed⟩

/-- The first value that is true, or false, as a chain of tests finds it; the last one if
there is none. -/
def firstOf (ops : Values V) (value : Bool) : List (Evaluation V) → Evaluation V
  | [] => fun _ => none
  | [f] => f
  | f :: rest => fun cells => do
    let (v, cells) ← f cells
    if ops.isTrue v = value then some (v, cells) else firstOf ops value rest cells

def allOf : List (Evaluation V) → Cells V → Option (List V × Cells V)
  | [], cells => some ([], cells)
  | f :: rest, cells => do
    let (v, cells) ← f cells
    let (vs, cells) ← allOf rest cells
    return (vs ++ [v], cells)

def concatOf (ops : Values V) (fs : List (Evaluation V)) : Evaluation V := fun cells => do
  let (vs, cells) ← allOf fs cells
  let v ← ops.join vs
  return (v, cells)

variable {value : Bool} {fs gs : List (Evaluation V)} {cells cells' : Cells V} {vs : List V}
    {operands : List Code}

theorem firstOf_cons {ops : Values V} {f : Evaluation V} {rest : List (Evaluation V)}
    (more : rest ≠ []) (cells : Cells V) :
    firstOf ops value (f :: rest) cells = (f cells).bind fun (v, cells) =>
      if ops.isTrue v = value then some (v, cells) else firstOf ops value rest cells := by
  rw [firstOf]
  · rfl
  · exact more

/-- A chain of tests goes on if no value of its front decides. -/
theorem firstOf_append {ops : Values V} (some_ : fs ≠ []) (more : gs ≠ []) (cells : Cells V) :
    firstOf ops value (fs ++ gs) cells = (firstOf ops value fs cells).bind fun (v, cells) =>
      if ops.isTrue v = value then some (v, cells) else firstOf ops value gs cells := by
  induction fs generalizing cells with
  | nil => exact absurd rfl some_
  | cons _ rest ih =>
    cases rest with
    | nil => exact firstOf_cons more cells
    | cons g rest =>
      have others : g :: rest ≠ [] := List.cons_ne_nil _ _
      rw [List.cons_append, firstOf_cons (List.append_ne_nil_of_left_ne_nil others gs),
        firstOf_cons others, Option.bind_assoc]
      refine Option.bind_congr fun result _ => ?_
      obtain ⟨v, cells⟩ := result
      by_cases found : ops.isTrue v = value
      · simp [found]
      · simp only [if_neg found]
        exact ih others cells

/-- All values of the front and then all of the back. -/
theorem allOf_append (fs gs : List (Evaluation V)) (cells : Cells V) :
    allOf (fs ++ gs) cells = (allOf fs cells).bind fun (vs, cells) =>
      (allOf gs cells).bind fun (ws, cells) => some (ws ++ vs, cells) := by
  induction fs generalizing cells with
  | nil =>
    simp only [List.nil_append, allOf, Option.bind_some, List.append_nil]
    exact (Option.bind_fun_some _).symm
  | cons _ _ ih =>
    simp only [List.cons_append, allOf, ih, bind, Option.bind_assoc]
    refine Option.bind_congr fun _ _ => Option.bind_congr fun _ _ => ?_
    simp

theorem length_allOf (run : allOf fs cells = some (vs, cells')) : vs.length = fs.length := by
  induction fs generalizing cells vs with
  | nil =>
    cases run
    rfl
  | cons _ _ ih =>
    simp only [allOf, bind, Option.bind_eq_some_iff, Prod.exists] at run
    obtain ⟨v, _, _, ws, _, others, same⟩ := run
    cases same
    simp [ih others]

theorem concatOf_single (ops : Values V) (f : Evaluation V) : concatOf ops [f] = f := by
  funext cells
  cases value : f cells with
  | none => simp [concatOf, allOf, value]
  | some => simp [concatOf, allOf, value, Values.join]

theorem join_ne_none (ops : Values V) (some_ : fs ≠ []) (run : allOf fs cells = some (vs, cells')) :
    ∃ v, ops.join vs = some v := by
  cases vs with
  | nil => exact absurd (List.length_eq_zero_iff.mp (length_allOf run).symm) some_
  | cons => exact ⟨_, rfl⟩

/-- What was evaluated later comes first. -/
theorem concatOf_append {ops : Values V} (some_ : fs ≠ []) (more : gs ≠ []) (cells : Cells V) :
    concatOf ops (fs ++ gs) cells = (concatOf ops fs cells).bind fun (b, cells) =>
      (concatOf ops gs cells).bind fun (a, cells) => some (ops.concat a b, cells) := by
  simp only [concatOf, allOf_append, bind, pure, Option.bind_assoc]
  cases first : allOf fs cells with
  | none => rfl
  | some result =>
    obtain ⟨vs, cells₁⟩ := result
    obtain ⟨b, back⟩ := join_ne_none ops some_ first
    cases second : allOf gs cells₁ with
    | none => simp [back, second]
    | some result =>
      obtain ⟨ws, cells₂⟩ := result
      obtain ⟨a, front⟩ := join_ne_none ops more second
      simp [back, front, second, ops.join_append front back]

variable {ops : Values V} {image : Image}

/-- A chain of tests computes the first value that ends it. -/
theorem Joined.computes (joined : Joined value operands code)
    (all : List.Forall₂ (Code.Computes ops image) operands fs) :
    code.Computes ops image (firstOf ops value fs) := by
  induction joined generalizing fs with
  | last =>
    obtain ⟨f, _, first, none, rfl⟩ := List.forall₂_cons_left_iff.mp all
    cases none
    exact first
  | @test _ _ _ _ joined distance ih =>
    obtain ⟨f, fs, first, others, rfl⟩ := List.forall₂_cons_left_iff.mp all
    have more : fs ≠ [] := by
      rintro rfl
      cases others
      cases joined
    intro start cells cells' v laid run values printed
    simp only [Code.laidAt_append, Code.laidAt_cons, size_gotoOrDrop] at laid
    obtain ⟨here, test, behind⟩ := laid
    simp only [firstOf_cons more, Option.bind_eq_some_iff, Prod.exists] at run
    obtain ⟨w, cells₁, computed, ending⟩ := run
    have tested := first here computed values printed
    by_cases found : ops.isTrue w = value
    · rw [if_pos found] at ending
      cases ending
      refine tested.trans (Machine.reaches_gotoOrDrop_taken test ?_ found)
      simp only [Code.size_append, Code.size_cons, size_gotoOrDrop, distance]
      omega
    · rw [if_neg found] at ending
      have passed := tested.trans (Machine.reaches_gotoOrDrop_passed test found)
      rw [size_gotoOrDrop] at passed
      refine (passed.trans (ih others behind ending values printed)).at ?_
      simp only [Code.size_append, Code.size_cons, size_gotoOrDrop]
      omega

/-- Operands one after the other push their values. -/
theorem reaches_allOf (all : List.Forall₂ (Code.Computes ops image) operands fs) {start : Nat}
    (laid : Code.LaidAt image.code start operands.flatten)
    (run : allOf fs cells = some (vs, cells')) (values printed : List V) :
    Reaches ops image ⟨start, cells.push values, printed⟩
      ⟨start + Code.size operands.flatten, cells'.push (vs ++ values), printed⟩ := by
  induction all generalizing start cells values vs with
  | nil =>
    cases run
    exact .refl _
  | @cons _ _ _ _ first _ ih =>
    simp only [allOf, bind, Option.bind_eq_some_iff, Prod.exists] at run
    obtain ⟨v, cells₁, computed, ws, cells₂, others, same⟩ := run
    cases same
    rw [List.flatten_cons, Code.laidAt_append] at laid
    have front := first laid.1 computed values printed
    have back := ih laid.2 others (v :: values)
    rw [List.flatten_cons, Code.size_append, ← Nat.add_assoc, List.append_assoc]
    exact front.trans back

/-- Operands and the concatenation behind them compute the joined value. -/
theorem computes_concat {count : UInt16} (all : List.Forall₂ (Code.Computes ops image) operands fs)
    (counted : count.toNat = operands.length) :
    Code.Computes ops image (operands.flatten ++ [.concat count]) (concatOf ops fs) := by
  intro start cells cells' v laid run values printed
  simp only [concatOf, bind, pure, Option.bind_eq_some_iff, Prod.exists] at run
  obtain ⟨vs, cells₁, computed, w, joined, same⟩ := run
  cases same
  simp only [Code.laidAt_append, Code.laidAt_cons] at laid
  have pushed := reaches_allOf all laid.1 computed values printed
  have length : count.toNat = vs.length := by
    rw [counted, length_allOf computed, all.length_eq]
  refine (pushed.trans (Machine.reaches_concat laid.2.1 length joined)).at ?_
  rw [Code.size_append, Code.size_cons, Code.size_nil, Nat.add_zero, Nat.add_assoc]

end Computes

end Bindery.Emit

namespace Bindery

open Emit (Code)
open Machine (Cells Image Instruction Reaches Values)
open Storage (Slot)

variable {code : Code}

/-! ### What code refers to -/

/-- Where the code written between two emissions finds symbols and constants. -/
structure Refers (symbols : SymbolTable) (image : Image) (slots : SymbolId → Option Slot)
    (e e' : Emission) : Prop where
  slot : ∀ {s slot a b}, Emission.Expands symbols e a → Emit.resolve symbols s a = .ok (slot, b) →
    Emission.Expands symbols b e' → slots s = some slot
  constant : ∀ {c i a b}, Emission.Expands symbols e a → Emit.constant c a = .ok (i, b) →
    Emission.Expands symbols b e' →
    ∃ n, i = .constant n ∧ image.constants.get? n.toNat = some c

namespace Refers

variable {symbols : SymbolTable} {image : Image} {slots : SymbolId → Option Slot}
    {e e₁ e' : Emission}

/-- The same holds of the code of a part. -/
theorem first (refers : Refers symbols image slots e e')
    (later : Emission.Expands symbols e₁ e') : Refers symbols image slots e e₁ where
  slot from_ run upto := refers.slot from_ run (upto.trans later)
  constant from_ run upto := refers.constant from_ run (upto.trans later)

/-- What is written later refers to the same slots. -/
theorem second (refers : Refers symbols image slots e e')
    (earlier : Emission.Expands symbols e e₁) : Refers symbols image slots e₁ e' where
  slot from_ run upto := refers.slot (earlier.trans from_) run upto
  constant from_ run upto := refers.constant (earlier.trans from_) run upto

end Refers

def Bound.Memory.cells {V : Type} (slots : SymbolId → Option Slot) : Bound.Memory (Cells V) V where
  read cells s := (slots s).bind cells.load
  write cells s v := (slots s).bind (cells.store · v)

end Bindery

namespace Bindery.Bound

open Emit (Code Evaluation allOf computes_concat concatOf concatOf_append concatOf_single
  firstOf firstOf_append jumpSize size_gotoDrop)
open Machine (Cells Image Instruction Reaches Values)
open Storage (Slot)

/-! ### Expressions -/

section Values

variable {V : Type} {ops : Values V} {image : Image}

def chained (ops : Values V) (chain : Option BinaryOperation) (fs : List (Evaluation V)) :
    Evaluation V :=
  match chain with
  | some .logicalAnd => firstOf ops false fs
  | some .logicalOr => firstOf ops true fs
  | some .concat => concatOf ops fs
  | _ => fs.headD fun _ => none

/-- An operand that stands alone is the chain. -/
theorem chained_single (ops : Values V) (chain : Option BinaryOperation) (f : Evaluation V) :
    chained ops chain [f] = f := by
  unfold chained
  split
  · rfl
  · rfl
  · exact concatOf_single ops f
  · rfl

variable {code : Code} {op : BinaryOperation} {start : Nat} {σ : Type} {value : Bool} {s : SymbolId}
    {slot : Slot} {ty : Ty} {span : Span} {left right : Expression} {codes : List Code}

/-- A literal computes itself. -/
theorem computes_literal {symbols : SymbolTable} {slots : SymbolId → Option Slot} {value : Literal}
    {e e' : Emission} (run : Emit.literal value e = .ok (code, e'))
    (refers : Refers symbols image slots e e') :
    code.Computes ops image fun cells => some (value.evaluate ops, cells) := by
  have constants : ∀ {c i}, Emit.constant c e = .ok (i, e') → code = [i] →
      value.evaluate ops = ops.constant c →
      code.Computes ops image fun cells => some (value.evaluate ops, cells) := by
    rintro c i added rfl value start cells cells' v laid computed values printed
    cases computed
    obtain ⟨n, rfl, known⟩ := refers.constant (.refl e) added (.refl e')
    rw [value]
    exact Machine.reaches_constant (Code.laidAt_cons.mp laid).1 known
  cases value with
  | boolean value =>
    intro start cells cells' v laid computed values printed
    cases computed
    cases value <;> cases run <;>
      exact Machine.reaches_of_execute (Code.laidAt_cons.mp laid).1 rfl
  | _ =>
    simp only [Emit.literal, Emit.bind_eq_ok, Emit.pure_eq_ok] at run
    obtain ⟨i, _, added, same, rfl⟩ := run
    exact constants added same rfl

/-- The code of an operation makes its result of the two topmost values. -/
theorem reaches_lowering (lowered : op.lowering = .apply code) (laid : code.LaidAt image.code start)
    (cells : Cells V) (a b : V) (values printed : List V) :
    Reaches ops image ⟨start, cells.push (b :: a :: values), printed⟩
      ⟨start + code.size, cells.push (op.evaluate ops a b :: values), printed⟩ := by
  cases op <;> cases lowered <;> simp only [Code.laidAt_cons] at laid
  case notEquals | greaterThanEqual | lessThanEqual =>
    exact (Machine.reaches_binary laid.1 rfl).trans (Machine.reaches_unary laid.2.1 rfl)
  all_goals exact Machine.reaches_binary laid.1 rfl

theorem reaches_unaryCode {op : UnaryOperation} (laid : op.code.LaidAt image.code start)
    (cells : Cells V) (v : V) (values printed : List V) :
    Reaches ops image ⟨start, cells.push (v :: values), printed⟩
      ⟨start + op.code.size, cells.push (op.evaluate ops v :: values), printed⟩ := by
  cases op with
  | identity => exact .refl _
  | negation | logicalNegation => exact Machine.reaches_unary (Code.laidAt_cons.mp laid).1 rfl

/-- Operands that are not a chain are evaluated one after the other. -/
theorem evaluate_apply {memory : Memory σ V} (lowered : op.lowering = .apply code)
    (left right : Expression) (ty : Ty) (span : Span) (st : σ) :
    (Expression.binary op left right ty span).evaluate ops memory st =
      (left.evaluate ops memory st).bind fun (a, st) =>
        (right.evaluate ops memory st).bind fun (b, st) => some (op.evaluate ops a b, st) := by
  cases op <;> cases lowered <;> rfl

/-- A chain of tests goes on to its right operand unless the left one ends it. -/
theorem evaluate_test {memory : Memory σ V} (lowered : op.lowering = .test value)
    (left right : Expression) (ty : Ty) (span : Span) (st : σ) :
    (Expression.binary op left right ty span).evaluate ops memory st =
      (left.evaluate ops memory st).bind fun (v, st) =>
        if ops.isTrue v = value then some (v, st) else right.evaluate ops memory st := by
  cases op <;> cases lowered
  case logicalOr => rfl
  case logicalAnd =>
    refine Option.bind_congr fun result _ => ?_
    obtain ⟨v, st⟩ := result
    by_cases truth : ops.isTrue v = true
    · simp [truth]
    · simp [Bool.eq_false_iff.mpr truth]

/-- A chain of tests has the first value that decides. -/
theorem chained_test (lowered : op.lowering = .test value) (fs : List (Evaluation V)) :
    chained ops (some op) fs = firstOf ops value fs := by
  cases op <;> cases lowered <;> rfl

theorem eq_concat (lowered : op.lowering = .concat) : op = .concat := by
  cases op <;> cases lowered
  rfl

/-- Operands compute values that together are the value of the expression. -/
def ComputesChain (ops : Values V) (image : Image) (slots : SymbolId → Option Slot)
    (chain : Option BinaryOperation) (x : Expression) (codes : List Code) : Prop :=
  ∃ fs, List.Forall₂ (Code.Computes ops image) codes fs ∧
    ∀ cells, chained ops chain fs cells = x.evaluate ops (.cells slots) cells

variable {symbols : SymbolTable} {slots : SymbolId → Option Slot} {x : Expression}
    {chain : Option BinaryOperation} {e e' : Emission}

/-- An expression that is no chain is its own operand. -/
theorem ComputesChain.of_single (computes : code.Computes ops image (x.evaluate ops (.cells slots)))
    :
    ComputesChain ops image slots chain x [code] :=
  ⟨[_], .cons computes .nil, fun cells => by rw [chained_single]⟩

theorem ComputesChain.flatten {codes : List Code} (run : x.Writes symbols none e codes e')
    (computes : ComputesChain ops image slots none x codes) :
    Code.Computes ops image codes.flatten (x.evaluate ops (.cells slots)) := by
  obtain ⟨fs, all, value⟩ := computes
  obtain ⟨code, rfl⟩ := List.length_eq_one_iff.mp run.length_eq_one
  obtain ⟨f, _, first, rest, rfl⟩ := List.forall₂_cons_left_iff.mp all
  cases rest
  have same : f = x.evaluate ops (.cells slots) := funext value
  rw [List.flatten_singleton, ← same]
  exact first

/-- A symbol that is loaded has the value in its slot. -/
theorem computes_reference (known : slots s = some slot) :
    Code.Computes ops image [Emit.load slot]
      ((Expression.reference s ty span).evaluate ops (.cells slots)) := by
  intro start cells cells' v laid run values printed
  simp only [Expression.evaluate, Memory.cells, known, Option.bind_some,
    Option.map_eq_some_iff] at run
  obtain ⟨_, found, same⟩ := run
  cases same
  refine (Machine.reaches_load (Code.laidAt_cons.mp laid).1 found).at ?_
  rw [Code.size_cons, Code.size_nil, Nat.add_zero]

/-- An assignment has the value that it stores. -/
theorem computes_assignment {value : Expression} (known : slots s = some slot)
    (computes : code.Computes ops image (value.evaluate ops (.cells slots))) :
    Code.Computes ops image (code ++ [Emit.store slot])
      ((Expression.assignment s value ty span).evaluate ops (.cells slots)) := by
  intro start cells cells' v laid run values printed
  simp only [Expression.evaluate, Memory.cells, known, Option.bind_some, bind, pure,
    Option.bind_eq_some_iff, Prod.exists] at run
  obtain ⟨w, cells₁, computed, cells₂, stored, same⟩ := run
  cases same
  simp only [Code.laidAt_append, Code.laidAt_cons] at laid
  have pushed := computes laid.1 computed values printed
  refine (pushed.trans (Machine.reaches_store laid.2.1 stored)).at ?_
  rw [Code.size_append, Code.size_cons, Code.size_nil, Nat.add_zero, Nat.add_assoc]

/-- An operation computes its value from those of its operands. -/
theorem computes_apply {l r : Code} (lowered : op.lowering = .apply code)
    (first : l.Computes ops image (left.evaluate ops (.cells slots)))
    (second : r.Computes ops image (right.evaluate ops (.cells slots))) :
    Code.Computes ops image (l ++ (r ++ code))
      ((Expression.binary op left right ty span).evaluate ops (.cells slots)) := by
  intro start cells cells' v laid run values printed
  simp only [evaluate_apply lowered, Option.bind_eq_some_iff, Prod.exists] at run
  obtain ⟨a, cells₁, lower, b, cells₂, upper, same⟩ := run
  cases same
  simp only [Code.laidAt_append] at laid
  have operands := (first laid.1 lower values printed).trans
    (second laid.2.1 upper (a :: values) printed)
  refine (operands.trans (reaches_lowering lowered laid.2.2 ..)).at ?_
  simp only [Code.size_append]
  omega

/-- An operation on one operand computes its value. -/
theorem computes_unary {op : UnaryOperation} {operand : Expression}
    (computes : code.Computes ops image (operand.evaluate ops (.cells slots))) :
    Code.Computes ops image (code ++ op.code)
      ((Expression.unary op operand ty span).evaluate ops (.cells slots)) := by
  intro start cells cells' v laid run values printed
  simp only [Expression.evaluate, bind, pure, Option.bind_eq_some_iff, Prod.exists] at run
  obtain ⟨w, cells₁, computed, same⟩ := run
  cases same
  rw [Code.laidAt_append] at laid
  have pushed := computes laid.1 computed values printed
  refine (pushed.trans (reaches_unaryCode laid.2 ..)).at ?_
  rw [Code.size_append, Nat.add_assoc]

/-- A conditional computes the value of one branch. -/
theorem computes_ternary {condition yes no : Expression} {c y n : Code} {skip leave : Int16}
    (past : skip.toInt = (y.size + jumpSize : Nat)) (out : leave.toInt = (n.size : Nat))
    (test : c.Computes ops image (condition.evaluate ops (.cells slots)))
    (first : y.Computes ops image (yes.evaluate ops (.cells slots)))
    (second : n.Computes ops image (no.evaluate ops (.cells slots))) :
    Code.Computes ops image (c ++ .gotoDrop false skip :: (y ++ .goto leave :: n))
      ((Expression.ternary condition yes no ty span).evaluate ops (.cells slots)) := by
  intro start cells cells' v laid run values printed
  simp only [Expression.evaluate, bind, Option.bind_eq_some_iff, Prod.exists] at run
  obtain ⟨w, cells₁, tested, branch⟩ := run
  simp only [Code.laidAt_append, Code.laidAt_cons] at laid
  obtain ⟨condition, jump, yes, goto, no⟩ := laid
  have pushed := test condition tested values printed
  simp only [Code.size_append, Code.size_cons, size_gotoDrop]
  by_cases truth : ops.isTrue w = true
  · rw [if_pos truth] at branch
    have passed := pushed.trans
      (Machine.reaches_gotoDrop_passed jump (by rw [truth]; exact Bool.noConfusion))
    have taken := passed.trans (first yes branch values printed)
    refine taken.trans (Machine.reaches_goto goto ?_)
    simp only [size_gotoDrop, out]
    omega
  · rw [if_neg truth] at branch
    have computed := second no branch values printed
    have leads : ((start + c.size + (Instruction.gotoDrop false skip).size : Nat) : Int) +
        skip.toInt = (start + c.size + (Instruction.gotoDrop false skip).size + y.size +
          (Instruction.goto leave).size : Nat) := by
      have size : (Instruction.goto leave).size = jumpSize := rfl
      rw [past, size]
      omega
    have jumped := pushed.trans
      (Machine.reaches_gotoDrop_taken jump leads (Bool.eq_false_iff.mpr truth))
    refine (jumped.trans computed).at ?_
    simp only [size_gotoDrop]
    omega

/-- The operands of a chain of tests are those of its two sides. -/
theorem ComputesChain.test {l r : List Code} (lowered : op.lowering = .test value) (some_ : l ≠ [])
    (more : r ≠ []) (first : ComputesChain ops image slots (some op) left l)
    (second : ComputesChain ops image slots (some op) right r) :
    ComputesChain ops image slots (some op) (.binary op left right ty span) (l ++ r) := by
  obtain ⟨fs, all, value₁⟩ := first
  obtain ⟨gs, others, value₂⟩ := second
  have some_' : fs ≠ [] := fun none => some_ (List.forall₂_nil_right_iff.mp (none ▸ all))
  have more' : gs ≠ [] := fun none => more (List.forall₂_nil_right_iff.mp (none ▸ others))
  refine ⟨fs ++ gs, List.rel_append all others, fun cells => ?_⟩
  simp only [chained_test lowered] at value₁ value₂ ⊢
  rw [firstOf_append some_' more', evaluate_test lowered, value₁]
  simp only [value₂]

/-- The operands of a concatenation are those of its right side and then those of its left
side. -/
theorem ComputesChain.concat {left right : Expression} {l r : List Code} {ty : Ty} {span : Span}
    (some_ : r ≠ []) (more : l ≠ []) (first : ComputesChain ops image slots (some .concat) right r)
    (second : ComputesChain ops image slots (some .concat) left l) :
    ComputesChain ops image slots (some .concat) (.binary .concat left right ty span) (r ++ l) := by
  obtain ⟨fs, all, value₁⟩ := first
  obtain ⟨gs, others, value₂⟩ := second
  have some_' : fs ≠ [] := fun none => some_ (List.forall₂_nil_right_iff.mp (none ▸ all))
  have more' : gs ≠ [] := fun none => more (List.forall₂_nil_right_iff.mp (none ▸ others))
  refine ⟨fs ++ gs, List.rel_append all others, fun cells => ?_⟩
  change concatOf ops (fs ++ gs) cells = _
  rw [concatOf_append some_' more']
  change ((chained ops (some .concat) fs cells).bind fun (b, cells) =>
    (chained ops (some .concat) gs cells).bind _) = _
  rw [value₁]
  simp only [value₂]
  rfl

/-- A chain that is complete is joined by its tests. -/
theorem ComputesChain.joined (lowered : op.lowering = .test value) (some_ : codes ≠ [])
    (run : Emit.joinTests value (Emit.testsSize codes) codes = .ok code)
    (computes : ComputesChain ops image slots (some op) x codes) :
    code.Computes ops image (x.evaluate ops (.cells slots)) := by
  obtain ⟨fs, all, value⟩ := computes
  have same : firstOf ops _ fs = x.evaluate ops (.cells slots) :=
    funext fun cells => (chained_test lowered fs ▸ value cells)
  rw [← same]
  exact (Emit.joinTests_joined some_ run).1.computes all

/-- The code of an expression computes what the expression evaluates to in the cells of its
symbols. -/
theorem Expression.Writes.computesChain :
    ∀ {x : Expression} {chain : Option BinaryOperation} {e e' : Emission} {codes : List Code},
      x.Writes symbols chain e codes e' → Refers symbols image slots e e' →
        ComputesChain ops image slots chain x codes
  | _, _, _, _, _, .literal run, refers => .of_single (computes_literal run refers)
  | _, _, e, e', _, .reference run, refers =>
    .of_single (computes_reference (refers.slot (.refl e) run (.refl e')))
  | _, _, _, e', _, .assignment value run, refers => by
    have known := refers.slot value.expands run (.refl e')
    have inner := value.computesChain (refers.first (.resolve run))
    exact .of_single (computes_assignment known (inner.flatten value))
  | _, _, _, _, _, .apply lowered left right, refers => by
    have first := left.computesChain (refers.first right.expands)
    have second := right.computesChain (refers.second left.expands)
    exact .of_single (computes_apply lowered (first.flatten left) (second.flatten right))
  | _, _, _, _, _, .testOperands lowered left right, refers =>
    .test lowered left.ne_nil right.ne_nil (left.computesChain (refers.first right.expands))
      (right.computesChain (refers.second left.expands))
  | .binary op x y ty span, _, _, _, _, .test lowered _ left right run, refers => by
    have both : ComputesChain ops image slots (some op) (.binary op x y ty span) _ :=
      .test lowered left.ne_nil right.ne_nil (left.computesChain (refers.first right.expands))
        (right.computesChain (refers.second left.expands))
    exact .of_single (both.joined lowered (List.append_ne_nil_of_left_ne_nil left.ne_nil _) run)
  | _, _, _, _, _, .concatOperands lowered right left, refers => by
    obtain rfl := eq_concat lowered
    exact .concat right.ne_nil left.ne_nil (right.computesChain (refers.first left.expands))
      (left.computesChain (refers.second right.expands))
  | .binary _ x y ty span, _, _, _, _, .concat lowered _ right left counted, refers => by
    obtain rfl := eq_concat lowered
    have both : ComputesChain ops image slots (some .concat) (.binary .concat x y ty span) _ :=
      .concat right.ne_nil left.ne_nil (right.computesChain (refers.first left.expands))
        (left.computesChain (refers.second right.expands))
    obtain ⟨fs, all, value⟩ := both
    have same : concatOf ops fs = Expression.evaluate ops (.cells slots) _ := funext value
    refine .of_single ?_
    rw [← same]
    exact computes_concat all (Machine.toWord16_eq_ok counted)
  | _, _, _, _, _, .unary operand, refers =>
    .of_single (computes_unary ((operand.computesChain refers).flatten operand))
  | _, _, _, _, _, .parenthesized inner, refers => by
    have computes := (inner.computesChain refers).flatten inner
    exact .of_single computes
  | _, _, _, _, _, .call .., _ => .of_single fun _ _ _ _ _ run => nomatch run
  | _, _, _, _, _, .ternary condition yes past no out, refers => by
    have test := condition.computesChain (refers.first (yes.expands.trans no.expands))
    have inside := refers.second condition.expands
    have first := yes.computesChain (inside.first no.expands)
    have second := no.computesChain (inside.second yes.expands)
    exact .of_single (computes_ternary (Machine.toDistance_eq_ok past)
      (Machine.toDistance_eq_ok out) (test.flatten condition) (first.flatten yes)
      (second.flatten no))

/-- The code of an expression computes what it evaluates to. -/
theorem Expression.Writes.computes (run : x.Writes symbols none e codes e')
    (refers : Refers symbols image slots e e') :
    Code.Computes ops image codes.flatten (x.evaluate ops (.cells slots)) :=
  (run.computesChain refers).flatten run

end Values

end Bindery.Bound
