import Bindery.Proofs.ExpressionFlow

/-!
The code of chains.

`Expression.chain` lists the operands of nested `&&`, of nested `||` or of a nested concatenation
from left to right, however they are nested. The code of such an expression is put together from
the codes of these operands, in their order or, for a concatenation, from the last one to the
first (`Expression.operands_test`, `Expression.operands_concat`). So it does not depend on how the
chain is nested, and its form can be said for the whole chain at once.
-/

namespace Bindery.Machine

theorem locate_append (start : Nat) (a b : List Instruction) :
    locate start (a ++ b) = locate start a ++ locate (start + sizeOfAll a) b := by
  induction a generalizing start with
  | nil => rfl
  | cons _ _ ih =>
    simp only [List.cons_append, locate, ih, sizeOfAll, total_cons, Nat.add_assoc]

end Bindery.Machine

namespace Bindery.Emit

open Machine (Instruction Located)

/-! ### Operands and tests -/

/-- Operands with tests between them, which jump over the distances. -/
def interleave (value : Bool) : List Code → List Int16 → Code
  | operand :: rest, d :: distances =>
    operand ++ .gotoOrDrop value d :: interleave value rest distances
  | operand :: _, [] => operand
  | [], _ => []

def testsAt (value : Bool) (start : Nat) : List Code → List Int16 → List Located
  | operand :: rest, d :: distances =>
    ⟨start + operand.size, .gotoOrDrop value d⟩ ::
      testsAt value (start + operand.size + jumpSize) rest distances
  | _, _ => []

/-- The code of the operands in order, with one test between any two. Every test leads to the end
of the last operand. -/
def SharesEnd (value : Bool) (operands : List Code) (code : Code) : Prop :=
  ∃ distances, distances.length + 1 = operands.length ∧
    code = interleave value operands distances ∧
    ∀ start, ∀ l ∈ testsAt value start operands distances,
      l ∈ Machine.locate start code ∧ l.target? = some ((start + code.size : Nat) : Int)

/-- A test jumps as far as it says. -/
theorem target?_gotoOrDrop (offset : Nat) (value : Bool) (d : Int16) :
    Located.target? ⟨offset, .gotoOrDrop value d⟩ = some (offset + jumpSize + d.toInt) := by
  cases value <;> rfl

/-- Operands that are joined by tests share their end. -/
theorem Joined.sharesEnd {value : Bool} {operands : List Code} {code : Code}
    (joined : Joined value operands code) : SharesEnd value operands code := by
  induction joined with
  | last => exact ⟨[], rfl, rfl, fun _ _ mem => absurd mem List.not_mem_nil⟩
  | @test operand rest _ d _ leads ih =>
    obtain ⟨distances, count, rfl, tests⟩ := ih
    refine ⟨d :: distances, congrArg (· + 1) count, rfl, fun start l mem => ?_⟩
    have whole : Code.size (operand ++ .gotoOrDrop value d :: interleave value rest distances) =
        operand.size + (jumpSize + Code.size (interleave value rest distances)) := by
      simp [Code.size, Machine.sizeOfAll]
    rw [whole, Machine.locate_append, List.mem_append, Machine.locate, List.mem_cons]
    rcases List.mem_cons.mp mem with rfl | later
    · refine ⟨.inr (.inl rfl), ?_⟩
      rw [target?_gotoOrDrop, leads]
      push_cast
      simp only [Int.add_assoc]
    · -- The tests behind the first lead to the end of the rest, which is that of the whole.
      obtain ⟨placed, target⟩ := tests _ l later
      refine ⟨.inr (.inr ?_), ?_⟩
      · rwa [size_gotoOrDrop]
      · rw [target]
        simp only [Nat.add_assoc]

end Bindery.Emit

namespace Bindery.Bound

open Emit (Code)
open Machine (EmitError toWord16)

/-! ### Chains -/

/-- The operands of a chain from left to right. Parentheses and other operations end it. -/
def Expression.chain (op : BinaryOperation) : Expression → List Expression
  | .binary other left right ty span =>
    if other = op then left.chain op ++ right.chain op else [.binary other left right ty span]
  | x => [x]

variable {symbols : SymbolTable} {op : BinaryOperation}

/-- The head of an expression is another operation, or none. -/
def Expression.Alone (op : BinaryOperation) (x : Expression) : Prop :=
  ∀ left right ty span, x ≠ .binary op left right ty span

/-- An operand that continues no chain is its only operand. -/
theorem Expression.Alone.chain_eq {x : Expression} (alone : x.Alone op) : x.chain op = [x] := by
  cases x with
  | binary =>
    rw [Expression.chain, if_neg]
    rintro rfl
    exact alone _ _ _ _ rfl
  | _ => rfl

/-- What belongs to no chain has one operand, which is all its code. -/
theorem Expression.operands_none (x : Expression) :
    x.operands symbols none = [x].mapM (·.emit symbols) := by
  funext e
  rw [List.mapM_cons, List.mapM_nil, Expression.emit]
  change _ = Except.bind (Except.bind (x.operands symbols none e) fun p => .ok (p.1.flatten, p.2))
    fun p => .ok ([p.1], p.2)
  cases run : x.operands symbols none e with
  | error => rfl
  | ok result =>
    obtain ⟨codes, e'⟩ := result
    have one := (x.writes_of_operands run).length_eq_one
    obtain ⟨code, rfl⟩ := List.length_eq_one_iff.mp one
    change Except.ok ([code], e') = .ok ([[code].flatten], e')
    rw [List.flatten_singleton]

theorem Expression.Alone.operands_eq {x : Expression} (alone : x.Alone op) :
    x.operands symbols (some op) = (x.chain op).mapM (·.emit symbols) := by
  rw [alone.chain_eq, ← Expression.operands_none]
  cases x with
  | binary other =>
    have differs : ¬ some op = some other := by
      rintro ⟨rfl⟩
      exact alone _ _ _ _ rfl
    rw [Expression.operands, Expression.operands]
    simp only [if_neg differs, reduceCtorEq, if_false]
  | _ => rw [Expression.operands, Expression.operands]

/-- The operands of a chain of tests are written in their order. -/
theorem Expression.operands_test {value : Bool} (lowered : op.lowering = .test value) :
    ∀ x : Expression, x.operands symbols (some op) = (x.chain op).mapM (·.emit symbols)
  | .binary other left right .. => by
    by_cases same : op = other
    · subst same
      rw [Expression.operands, lowered, Expression.chain, if_pos rfl, List.mapM_append,
        left.operands_test lowered, right.operands_test lowered]
      simp
    · exact Expression.Alone.operands_eq fun _ _ _ _ eq => same (Expression.binary.inj eq).1.symm
  | .literal .. | .reference .. | .assignment .. | .unary .. | .parenthesized .. | .call ..
  | .ternary .. | .error .. => Expression.Alone.operands_eq nofun

/-- The operands of a concatenation are written from the last one to the first. -/
theorem Expression.operands_concat :
    ∀ x : Expression,
      x.operands symbols (some .concat) = (x.chain .concat).reverse.mapM (·.emit symbols)
  | .binary other left right ty span => by
    by_cases same : other = .concat
    · subst same
      rw [Expression.operands, BinaryOperation.lowering, Expression.chain, if_pos rfl,
        List.reverse_append, List.mapM_append, left.operands_concat,
        right.operands_concat]
      simp
    · have alone : Expression.Alone .concat (.binary other left right ty span) :=
        fun _ _ _ _ eq => same (Expression.binary.inj eq).1
      rw [alone.operands_eq, alone.chain_eq, List.reverse_singleton]
  | .literal .. | .reference .. | .assignment .. | .unary .. | .parenthesized .. | .call ..
  | .ternary .. | .error .. => Expression.Alone.operands_eq nofun

/-! ### Their code -/

/-- A chain of tests is written from the codes of its operands. -/
theorem Expression.emit_test {value : Bool} (lowered : op.lowering = .test value)
    (left right : Expression) (ty : Ty) (span : Span) :
    (Expression.binary op left right ty span).emit symbols = (do
      let codes ← ((Expression.binary op left right ty span).chain op).mapM (·.emit symbols)
      Emit.joinTests value (Emit.testsSize codes) codes) := by
  rw [Expression.emit, Expression.operands, lowered, Expression.operands_test lowered,
    Expression.operands_test lowered, Expression.chain, if_pos rfl, List.mapM_append]
  simp

/-- A concatenation is written from its last operand to its first. -/
theorem Expression.emit_concat (left right : Expression) (ty : Ty) (span : Span) :
    (Expression.binary .concat left right ty span).emit symbols = (do
      let codes ← ((Expression.binary .concat left right ty span).chain .concat).reverse.mapM
        (·.emit symbols)
      let count ← toWord16 .operandCount codes.length
      return codes.flatten ++ [.concat count]) := by
  rw [Expression.emit, Expression.operands, BinaryOperation.lowering, Expression.operands_concat,
    Expression.operands_concat, Expression.chain, if_pos rfl, List.reverse_append, List.mapM_append]
  simp

variable {x : Expression} {e e' : Emission} {codes : List Code}

theorem length_of_mapM_emit {operands : List Expression}
    (run : operands.mapM (·.emit symbols) e = .ok (codes, e')) :
    codes.length = operands.length := by
  induction operands generalizing e codes with
  | nil =>
    rw [List.mapM_nil, Emit.pure_eq_ok] at run
    exact congrArg List.length run.1
  | cons _ _ ih =>
    simp only [List.mapM_cons, Emit.bind_eq_ok, Emit.pure_eq_ok] at run
    obtain ⟨_, _, _, _, _, others, rfl, rfl⟩ := run
    rw [List.length_cons, List.length_cons, ih others]

/-- An expression with several operands is an operation of the chain. -/
theorem Expression.eq_binary_of_several (several : 2 ≤ (x.chain op).length) :
    ∃ left right ty span, x = .binary op left right ty span := by
  refine Classical.byContradiction fun other => ?_
  have alone : x.Alone op := fun left right ty span eq => other ⟨left, right, ty, span, eq⟩
  rw [alone.chain_eq] at several
  exact Nat.not_succ_le_self 1 several

/-- All tests of a chain jump to its end. -/
theorem Expression.emit_test_sharesEnd {value : Bool} {code : Code}
    (lowered : op.lowering = .test value) (several : 2 ≤ (x.chain op).length)
    (run : x.emit symbols e = .ok (code, e')) :
    ∃ codes, (x.chain op).mapM (·.emit symbols) e = .ok (codes, e') ∧
      Emit.SharesEnd value codes code := by
  obtain ⟨left, right, ty, span, rfl⟩ := Expression.eq_binary_of_several several
  simp only [Expression.emit_test lowered, Emit.bind_eq_ok, Emit.lift_eq_ok] at run
  obtain ⟨codes, _, operands, joined, rfl⟩ := run
  have some_ : codes ≠ [] := by
    rw [← List.length_pos_iff, length_of_mapM_emit operands]
    omega
  exact ⟨codes, operands, (Emit.joinTests_joined some_ joined).1.sharesEnd⟩

/-- A chain of concatenations ends with one instruction for all its operands. -/
theorem Expression.emit_concat_flatten {code : Code}
    (several : 2 ≤ (x.chain .concat).length) (run : x.emit symbols e = .ok (code, e')) :
    ∃ codes count, (x.chain .concat).reverse.mapM (·.emit symbols) e = .ok (codes, e') ∧
      code = codes.flatten ++ [.concat count] ∧ count.toNat = (x.chain .concat).length := by
  obtain ⟨left, right, ty, span, rfl⟩ := Expression.eq_binary_of_several several
  simp only [Expression.emit_concat, Emit.bind_eq_ok, Emit.lift_eq_ok, Emit.pure_eq_ok] at run
  obtain ⟨codes, _, operands, count, _, ⟨counted, rfl⟩, rfl, rfl⟩ := run
  refine ⟨codes, count, operands, rfl, ?_⟩
  rw [Machine.toWord16_eq_ok counted, length_of_mapM_emit operands, List.length_reverse]

/-- The operands alone decide what is written. -/
theorem Expression.emit_congr {y : Expression}
    (chains : op = .logicalAnd ∨ op = .logicalOr ∨ op = .concat) (several : 2 ≤ (x.chain op).length)
    (same : y.chain op = x.chain op) : y.emit symbols = x.emit symbols := by
  obtain ⟨left, right, ty, span, rfl⟩ := Expression.eq_binary_of_several (same ▸ several)
  obtain ⟨left', right', ty', span', rfl⟩ := Expression.eq_binary_of_several several
  rcases chains with rfl | rfl | rfl
  · rw [Expression.emit_test rfl, Expression.emit_test rfl, same]
  · rw [Expression.emit_test rfl, Expression.emit_test rfl, same]
  · rw [Expression.emit_concat, Expression.emit_concat, same]

/-- A chain of `&&` or of `||` is the code of its operands in order, with one test between any two
that leads to the end of all; a concatenation is the code of its operands from the last one to the
first and one instruction that joins them. What is written, or why nothing is, depends only on the
operands, and not on how they are nested. -/
theorem Expression.emit_chain (symbols : SymbolTable) (op : BinaryOperation) (x : Expression)
    (several : 2 ≤ (x.chain op).length) (e : Emission) :
    (op = .logicalAnd → ∀ code e', x.emit symbols e = .ok (code, e') →
      ∃ codes, (x.chain op).mapM (·.emit symbols) e = .ok (codes, e') ∧
        Emit.SharesEnd false codes code) ∧
    (op = .logicalOr → ∀ code e', x.emit symbols e = .ok (code, e') →
      ∃ codes, (x.chain op).mapM (·.emit symbols) e = .ok (codes, e') ∧
        Emit.SharesEnd true codes code) ∧
    (op = .concat → ∀ code e', x.emit symbols e = .ok (code, e') →
      ∃ codes count, (x.chain op).reverse.mapM (·.emit symbols) e = .ok (codes, e') ∧
        code = codes.flatten ++ [.concat count] ∧ count.toNat = (x.chain op).length) ∧
    (op = .logicalAnd ∨ op = .logicalOr ∨ op = .concat → ∀ y : Expression,
      y.chain op = x.chain op → y.emit symbols e = x.emit symbols e) := by
  refine ⟨?_, ?_, ?_, ?_⟩
  · rintro rfl code e' run
    exact Expression.emit_test_sharesEnd rfl several run
  · rintro rfl code e' run
    exact Expression.emit_test_sharesEnd rfl several run
  · rintro rfl code e' run
    exact Expression.emit_concat_flatten several run
  · intro chains y same
    rw [Expression.emit_congr chains several same]

/-- Three operands nested to the left, or to the right. The last one is a chain of its own. -/
def nestedTests (toLeft : Bool) : Expression :=
  let both (a b : Expression) : Expression := .binary .logicalAnd a b .boolean default
  let yes : Expression := .literal (.boolean true) default
  let no : Expression := .literal (.boolean false) default
  let last : Expression := .parenthesized (both yes no) default
  if toLeft then both (both yes no) last else both yes (both no last)

theorem nestedTests_code :
    (nestedTests true).emit ∅ .empty = .ok ([.pushTrue, .gotoOrDrop false 9, .pushFalse,
      .gotoOrDrop false 5, .pushTrue, .gotoOrDrop false 1, .pushFalse], .empty) ∧
    ∃ codes, ((nestedTests true).chain .logicalAnd).mapM (·.emit ∅) .empty = .ok (codes, .empty) ∧
      Emit.SharesEnd false codes [.pushTrue, .gotoOrDrop false 9, .pushFalse,
        .gotoOrDrop false 5, .pushTrue, .gotoOrDrop false 1, .pushFalse] ∧
      (nestedTests false).emit ∅ .empty = (nestedTests true).emit ∅ .empty := by
  obtain ⟨tests, _, _, associated⟩ :=
    Expression.emit_chain ∅ .logicalAnd (nestedTests true) (by decide) .empty
  obtain ⟨codes, operands, shared⟩ := tests rfl _ _ rfl
  exact ⟨rfl, codes, operands, shared, associated (.inl rfl) (nestedTests false) rfl⟩

end Bindery.Bound
