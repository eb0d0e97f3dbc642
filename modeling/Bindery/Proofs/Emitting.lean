import Bindery.Emit.Statement
import Bindery.Proofs.Layout
import Mathlib.Logic.Relation

/-!
What has happened when code was written.

A sequence of steps succeeds exactly when each of them does, one after the other
(`Emit.bind_eq_ok`). `Expression.Writes` and `Statement.Writes` are the successful
runs of the emitter as relations, with a rule for each way in which a node is
written; `Expression.writes_of_emit` and `Statement.writes_of_emit` say that every
successful run is one of them. Properties of emitted code are proved by induction
on these runs.
-/

namespace Bindery.Machine

/-- The instructions that expressions are made of: they leave no function, print nothing, remove
no locals and make no closures. -/
def Opcode.evaluates : Opcode → Bool
  | .ret | .halt | .print | .pop | .closeFree | .closure => false
  | _ => true

end Bindery.Machine

namespace Bindery.Emit

open Machine (Capture EmitError Instruction LoopExit toDistance toWord16 toWord8)

section Monad

variable {α β : Type} {e e' e'' : Emission}

/-- A sequence of steps succeeds exactly when each of them does, one after the other. -/
theorem bind_eq_ok {m : Emit α} {f : α → Emit β} {b : β} :
    (m >>= f) e = .ok (b, e'') ↔ ∃ a e', m e = .ok (a, e') ∧ f a e' = .ok (b, e'') := by
  change (m e >>= fun p => f p.1 p.2) = _ ↔ _
  cases m e with
  | error => simp [bind, Except.bind]
  | ok p =>
    obtain ⟨a, e'⟩ := p
    simp [bind, Except.bind, and_assoc]

variable {a : α}

theorem pure_eq_ok {b : α} : (pure a : Emit α) e = .ok (b, e') ↔ b = a ∧ e' = e := by
  change Except.ok (a, e) = _ ↔ _
  simp only [Except.ok.injEq, Prod.mk.injEq]
  exact and_congr eq_comm eq_comm

theorem lift_eq_ok {x : Except EmitError α} :
    (liftM x : Emit α) e = .ok (a, e') ↔ x = .ok a ∧ e' = e := by
  change (x >>= fun a => Except.ok (a, e)) = _ ↔ _
  cases x with
  | error => simp [bind, Except.bind]
  | ok => simp [bind, Except.bind, eq_comm]

end Monad

/-! ### Steps on the state -/

variable {value : Bool} {operands : List Code} {code condition : Code} {i : Machine.Instruction}
    {e e' : Emission} {body : Fragment}

section Steps

/-- A constant is written as its index in the pool. -/
theorem constant_eq_ok {c : Machine.Constant} {i : Instruction} (run : constant c e = .ok (i, e')) :
    ∃ index constants, e.constants.intern c = ⟨constants, .ok index⟩ ∧
      i = .constant (.ofNat index) ∧ e' = { e with constants } := by
  unfold constant Machine.ConstantPool.add at run
  cases added : e.constants.intern c with
  | mk _ result =>
    rw [added] at run
    cases result with
    | error => cases run
    | ok =>
      cases run
      exact ⟨_, _, rfl, rfl, rfl⟩

/-- A literal is a truth value, or a constant that is not a function. -/
theorem literal_eq_ok {value : Literal} (run : literal value e = .ok (code, e')) :
    ((code = [.pushTrue] ∨ code = [.pushFalse]) ∧ e' = e) ∨
      ∃ c i, (∀ entry arity, c ≠ .function entry arity) ∧ constant c e = .ok (i, e') ∧
        code = [i] := by
  cases value with
  | boolean value =>
    cases value <;> cases run
    · exact .inl ⟨.inr rfl, rfl⟩
    · exact .inl ⟨.inl rfl, rfl⟩
  | _ =>
    simp only [literal, bind_eq_ok, pure_eq_ok] at run
    obtain ⟨i, _, added, rfl, rfl⟩ := run
    refine .inr ⟨_, i, ?_, added, rfl⟩
    exact nofun

/-- A declaration is global, and stores the value, or local, and leaves it where it is. -/
theorem declare_eq_ok {s : SymbolId} {store : Code} (run : declare s e = .ok (store, e')) :
    (e.frames.isGlobal = true ∧ ∃ index globals, e.globals.put s = .ok (index, globals) ∧
      store = [.setGlobal index, .pop] ∧ e' = { e with globals }) ∨
    (e.frames.isGlobal = false ∧ ∃ frames, e.frames.put s = .ok frames ∧
      store = [] ∧ e' = { e with frames }) := by
  unfold declare at run
  cases global : e.frames.isGlobal with
  | true =>
    rw [global, if_pos rfl] at run
    obtain ⟨_, put, ended⟩ := except_bind_eq_ok.mp run
    cases ended
    exact .inl ⟨rfl, _, _, put, rfl, rfl⟩
  | false =>
    rw [global, if_neg Bool.false_ne_true] at run
    obtain ⟨frames, put, ended⟩ := except_bind_eq_ok.mp run
    cases ended
    exact .inr ⟨rfl, frames, put, rfl, rfl⟩

/-- A function without captures needs no closure. -/
theorem closure_eq_ok {captures : List Capture} (run : closure captures = .ok code) :
    captures = [] ∧ code = [] ∨
      captures ≠ [] ∧ code = [.closure captures] ∧ captures.length < 65536 := by
  unfold closure at run
  split at run
  · rename_i none
    cases run
    exact .inl ⟨List.isEmpty_iff.mp none, rfl⟩
  · rename_i some_
    unfold toWord16 at run
    split at run
    · cases run
      exact .inr ⟨mt List.isEmpty_iff.mpr some_, rfl, ‹_›⟩
    · cases run

end Steps

/-! ### Chains of tests -/

/-- Operands joined by tests: each test jumps to the end of the whole. -/
inductive Joined (value : Bool) : List Code → Code → Prop where
  | last {c} : Joined value [c] c
  | test {operand rest code} {d : Int16} : Joined value rest code → d.toInt = Code.size code →
      Joined value (operand :: rest) (operand ++ .gotoOrDrop value d :: code)

@[simp] theorem size_gotoOrDrop (value : Bool) (d : Int16) :
    (Instruction.gotoOrDrop value d).size = jumpSize := by
  cases value <;> rfl

@[simp] theorem size_gotoDrop (value : Bool) (d : Int16) :
    (Instruction.gotoDrop value d).size = jumpSize := by
  cases value <;> rfl

@[simp] theorem size_goto (d : Int16) : (Instruction.goto d).size = jumpSize := rfl

theorem testsSize_cons {operand : Code} {rest : List Code} (more : rest ≠ []) :
    testsSize (operand :: rest) = operand.size + jumpSize + testsSize rest := by
  have positive : jumpSize ≤ total (fun code => Code.size code + jumpSize) rest := by
    cases rest with
    | nil => exact absurd rfl more
    | cons =>
      rw [total_cons]
      omega
  rw [testsSize, testsSize, total_cons]
  omega

/-- Tests are joined as far as their distances fit. -/
theorem joinTests_joined (some_ : operands ≠ [])
    (run : joinTests value (testsSize operands) operands = .ok code) :
    Joined value operands code ∧ code.size = testsSize operands := by
  induction operands generalizing code with
  | nil => exact absurd rfl some_
  | cons operand rest ih =>
    cases rest with
    | nil =>
      cases run
      exact ⟨.last, by simp [testsSize]⟩
    | cons next others =>
      have more : next :: others ≠ [] := List.cons_ne_nil _ _
      have remaining : testsSize (operand :: next :: others) - (operand.size + jumpSize) =
          testsSize (next :: others) := by
        rw [testsSize_cons more]
        omega
      rw [joinTests, remaining] at run
      · obtain ⟨_, fits, run⟩ := except_bind_eq_ok.mp run
        obtain ⟨_, joined, ended⟩ := except_bind_eq_ok.mp run
        cases ended
        obtain ⟨rest, size⟩ := ih more joined
        refine ⟨.test rest ?_, ?_⟩
        · rw [Machine.toDistance_eq_ok fits, size]
        · rw [testsSize_cons more, ← size]
          simp [Code.size, Machine.sizeOfAll]
          omega
      · exact more

/-! ### Code that evaluates -/

def Code.Evaluates (code : Code) : Prop := ∀ i ∈ code, i.opcode.evaluates = true

namespace Code

@[simp] theorem evaluates_nil : Evaluates [] := fun _ mem => absurd mem List.not_mem_nil

@[simp] theorem evaluates_cons {rest : Code} :
    Evaluates (i :: rest) ↔ i.opcode.evaluates = true ∧ Evaluates rest := List.forall_mem_cons

@[simp] theorem evaluates_append {a b : Code} :
    Evaluates (a ++ b) ↔ Evaluates a ∧ Evaluates b := List.forall_mem_append

end Code

theorem evaluates_constant {c : Machine.Constant} (run : constant c e = .ok (i, e')) :
    i.opcode.evaluates = true := by
  obtain ⟨_, _, _, rfl, _⟩ := constant_eq_ok run
  rfl

theorem evaluates_literal {value : Literal} (run : literal value e = .ok (code, e')) :
    code.Evaluates := by
  rcases literal_eq_ok run with ⟨rfl | rfl, _⟩ | ⟨_, i, _, added, rfl⟩
  · simp [Machine.Instruction.pushTrue, Machine.Instruction.simple, Machine.Opcode.evaluates]
  · simp [Machine.Instruction.pushFalse, Machine.Instruction.simple, Machine.Opcode.evaluates]
  · simp [evaluates_constant added]

theorem evaluates_load (slot : Storage.Slot) : (load slot).opcode.evaluates = true := by
  obtain ⟨kind, index⟩ := slot
  cases kind <;> rfl

theorem evaluates_store (slot : Storage.Slot) : (store slot).opcode.evaluates = true := by
  obtain ⟨kind, index⟩ := slot
  cases kind <;> rfl

theorem evaluates_lowering {op : BinaryOperation} (lowered : op.lowering = .apply code) :
    code.Evaluates := by
  unfold Code.Evaluates
  cases op <;> cases lowered <;> decide

theorem evaluates_unary (op : UnaryOperation) : Code.Evaluates op.code := by
  unfold Code.Evaluates
  cases op <;> decide

/-- Tests only evaluate. -/
theorem evaluates_joined (chain : Joined value operands code)
    (each : Code.Evaluates operands.flatten) : code.Evaluates := by
  induction chain with
  | last => simpa using each
  | test _ _ ih =>
    rw [List.flatten_cons, Code.evaluates_append] at each
    have jump : ∀ d, (Machine.Instruction.gotoOrDrop value d).opcode.evaluates = true := by
      intro d
      cases value <;> rfl
    simp [each.1, ih each.2, jump]

/-! ### Loops -/

/-- The loop that tests its condition first, before its exits are settled. -/
def whileBody (condition : Code) (body : Fragment) (skip back : Int16) : Fragment :=
  condition.toFragment ++ .instruction (.gotoDrop false skip) ::
    (body ++ [.instruction (.goto back)])

def doWhileBody (body : Fragment) (condition : Code) (back : Int16) : Fragment :=
  body ++ condition.toFragment ++ [.instruction (.gotoDrop true back)]

/-- The distances of a loop are those over its parts. -/
theorem whileLoop_eq_ok {code : Fragment} (run : Fragment.whileLoop condition body = .ok code) :
    ∃ skip back : Int16, skip.toInt = (Fragment.size body + jumpSize : Nat) ∧
      back.toInt = -(condition.size + jumpSize + (Fragment.size body + jumpSize) : Nat) ∧
      Fragment.closeLoop (whileBody condition body skip back) 0 = .ok code := by
  unfold Fragment.whileLoop at run
  obtain ⟨back, fits, run⟩ := except_bind_eq_ok.mp run
  obtain ⟨skip, fits', closed⟩ := except_bind_eq_ok.mp run
  exact ⟨skip, back, Machine.toDistance_eq_ok fits', Machine.toDistance_eq_ok fits, closed⟩

theorem doWhile_eq_ok {code : Fragment} (run : Fragment.doWhile body condition = .ok code) :
    ∃ back : Int16, back.toInt = -(Fragment.size body + condition.size + jumpSize : Nat) ∧
      Fragment.closeLoop (doWhileBody body condition back) (Fragment.size body) = .ok code := by
  unfold Fragment.doWhile at run
  obtain ⟨back, fits, closed⟩ := except_bind_eq_ok.mp run
  exact ⟨back, Machine.toDistance_eq_ok fits, closed⟩

end Bindery.Emit

namespace Bindery

open Emit (Code)
open Storage (Slot)

/-! ### What expressions add to an emission -/

/-- What the writing of expressions does to an emission: constants other than functions join the
pool, and symbols are taken over. -/
inductive Emission.Touches (symbols : SymbolTable) : Emission → Emission → Prop where
  | constant {c e i e'} : (∀ entry arity, c ≠ .function entry arity) →
      Emit.constant c e = .ok (i, e') → Touches symbols e e'
  | resolve {s e slot e'} : Emit.resolve symbols s e = .ok (slot, e') → Touches symbols e e'

def Emission.Expands (symbols : SymbolTable) : Emission → Emission → Prop :=
  Relation.ReflTransGen (Emission.Touches symbols)

namespace Emission.Expands

variable {symbols : SymbolTable} {e e' e'' : Emission}

theorem refl (e : Emission) : Expands symbols e e := Relation.ReflTransGen.refl

/-- One expression after the other. -/
theorem trans (first : Expands symbols e e') (second : Expands symbols e' e'') :
    Expands symbols e e'' :=
  Relation.ReflTransGen.trans first second

/-- Resolving a symbol may take it over. -/
theorem resolve {s : SymbolId} {slot : Slot} (run : Emit.resolve symbols s e = .ok (slot, e')) :
    Expands symbols e e' :=
  Relation.ReflTransGen.single (.resolve run)

theorem literal {value : Literal} {code : Code} (run : Emit.literal value e = .ok (code, e')) :
    Expands symbols e e' := by
  rcases Emit.literal_eq_ok run with ⟨_, rfl⟩ | ⟨_, _, other, added, _⟩
  · exact refl _
  · exact Relation.ReflTransGen.single (.constant other added)

/-- What every step preserves is preserved. -/
theorem preserves {P : Emission → Prop} (run : Expands symbols e e')
    (step : ∀ {a b}, Touches symbols a b → P a → P b) (before : P e) : P e' := by
  induction run with
  | refl => exact before
  | tail _ last ih => exact step last ih

end Emission.Expands

end Bindery

namespace Bindery.Bound

open Emit (Code Fragment jumpSize bind_eq_ok lift_eq_ok pure_eq_ok)
open Machine (EmitError Instruction toDistance toWord16)
open Storage (Local)

/-! ### Expressions -/

mutual

/-- `x.Writes symbols chain e codes e'`: as part of a chain of the given operation, `x`
is written as the operands `codes`, which takes `e` to `e'`. -/
inductive Expression.Writes (symbols : SymbolTable) :
    Option BinaryOperation → Expression → Emission → List Code → Emission → Prop where
  | literal {chain value span e code e'} : Emit.literal value e = .ok (code, e') →
      Expression.Writes symbols chain (.literal value span) e [code] e'
  | reference {chain s ty span e slot e'} : Emit.resolve symbols s e = .ok (slot, e') →
      Expression.Writes symbols chain (.reference s ty span) e [[Emit.load slot]] e'
  | assignment {chain s value ty span e v e₁ slot e'} :
      value.Writes symbols none e v e₁ → Emit.resolve symbols s e₁ = .ok (slot, e') →
      Expression.Writes symbols chain (.assignment s value ty span) e
        [v.flatten ++ [Emit.store slot]] e'
  | apply {chain op code left right ty span e l e₁ r e'} : op.lowering = .apply code →
      left.Writes symbols none e l e₁ → right.Writes symbols none e₁ r e' →
      Expression.Writes symbols chain (.binary op left right ty span) e
        [l.flatten ++ (r.flatten ++ code)] e'
  | testOperands {op value left right ty span e l e₁ r e'} : op.lowering = .test value →
      left.Writes symbols (some op) e l e₁ →
      right.Writes symbols (some op) e₁ r e' →
      Expression.Writes symbols (some op) (.binary op left right ty span) e (l ++ r) e'
  | test {chain op value left right ty span e l e₁ r e' code} : op.lowering = .test value →
      chain ≠ some op → left.Writes symbols (some op) e l e₁ →
      right.Writes symbols (some op) e₁ r e' →
      Emit.joinTests value (Emit.testsSize (l ++ r)) (l ++ r) = .ok code →
      Expression.Writes symbols chain (.binary op left right ty span) e [code] e'
  | concatOperands {op left right ty span e r e₁ l e'} : op.lowering = .concat →
      right.Writes symbols (some op) e r e₁ →
      left.Writes symbols (some op) e₁ l e' →
      Expression.Writes symbols (some op) (.binary op left right ty span) e (r ++ l) e'
  | concat {chain op left right ty span e r e₁ l e' count} : op.lowering = .concat →
      chain ≠ some op → right.Writes symbols (some op) e r e₁ →
      left.Writes symbols (some op) e₁ l e' →
      toWord16 .operandCount (r ++ l).length = .ok count →
      Expression.Writes symbols chain (.binary op left right ty span) e
        [(r ++ l).flatten ++ [.concat count]] e'
  | unary {chain op operand ty span e o e'} : operand.Writes symbols none e o e' →
      Expression.Writes symbols chain (.unary op operand ty span) e [o.flatten ++ op.code] e'
  | parenthesized {chain inner span e i e'} : inner.Writes symbols none e i e' →
      Expression.Writes symbols chain (.parenthesized inner span) e [i.flatten] e'
  | call {chain target arguments ty span e as e₁ t e'} :
      WritesArguments symbols arguments e as e₁ → target.Writes symbols none e₁ t e' →
      Expression.Writes symbols chain (.call target arguments ty span) e
        [as ++ (t.flatten ++ [.call])] e'
  | ternary {chain condition yes no ty span e c e₁ y e₂ skip n e' leave} :
      condition.Writes symbols none e c e₁ →
      yes.Writes symbols none e₁ y e₂ →
      toDistance (Code.size y.flatten + jumpSize : Nat) = .ok skip →
      no.Writes symbols none e₂ n e' →
      toDistance (Code.size n.flatten) = .ok leave →
      Expression.Writes symbols chain (.ternary condition yes no ty span) e
        [c.flatten ++ .gotoDrop false skip :: (y.flatten ++ .goto leave :: n.flatten)] e'

/-- The arguments of a call are written one after the other. -/
inductive WritesArguments (symbols : SymbolTable) :
    List Expression → Emission → Code → Emission → Prop where
  | nil {e} : WritesArguments symbols [] e [] e
  | cons {x rest e c e₁ cs e'} : x.Writes symbols none e c e₁ →
      WritesArguments symbols rest e₁ cs e' →
      WritesArguments symbols (x :: rest) e (c.flatten ++ cs) e'

end

variable {symbols : SymbolTable}

mutual

/-- The code of an expression was written by one of the rules. -/
theorem Expression.writes_of_operands :
    ∀ (x : Expression) {chain : Option BinaryOperation} {e e' : Emission} {codes : List Code},
      x.operands symbols chain e = .ok (codes, e') → x.Writes symbols chain e codes e'
  | .literal .., _, _, _, _, run => by
    simp only [Expression.operands, bind_eq_ok, pure_eq_ok] at run
    obtain ⟨code, _, written, rfl, rfl⟩ := run
    exact .literal written
  | .reference .., _, _, _, _, run => by
    simp only [Expression.operands, bind_eq_ok, pure_eq_ok] at run
    obtain ⟨slot, _, resolved, rfl, rfl⟩ := run
    exact .reference resolved
  | .assignment _ value .., _, _, _, _, run => by
    simp only [Expression.operands, bind_eq_ok, pure_eq_ok] at run
    obtain ⟨v, e₁, value', slot, _, resolved, rfl, rfl⟩ := run
    exact .assignment (value.writes_of_operands value') resolved
  | .binary op left right .., _, _, _, _, run => by
    simp only [Expression.operands] at run
    cases lowered : op.lowering with
    | apply =>
      simp only [lowered, bind_eq_ok, pure_eq_ok] at run
      obtain ⟨l, e₁, first, r, _, second, rfl, rfl⟩ := run
      exact .apply lowered (left.writes_of_operands first)
        (right.writes_of_operands second)
    | test =>
      simp only [lowered, bind_eq_ok] at run
      obtain ⟨l, e₁, first, r, e₂, second, ending⟩ := run
      have one := left.writes_of_operands first
      have two := right.writes_of_operands second
      split at ending
      · rename_i same
        subst same
        obtain ⟨rfl, rfl⟩ := pure_eq_ok.mp ending
        exact .testOperands lowered one two
      · rename_i other
        simp only [bind_eq_ok, pure_eq_ok, lift_eq_ok] at ending
        obtain ⟨code, _, ⟨joined, rfl⟩, rfl, rfl⟩ := ending
        exact .test lowered other one two joined
    | concat =>
      simp only [lowered, bind_eq_ok] at run
      obtain ⟨r, e₁, first, l, e₂, second, ending⟩ := run
      have one := right.writes_of_operands first
      have two := left.writes_of_operands second
      split at ending
      · rename_i same
        subst same
        obtain ⟨rfl, rfl⟩ := pure_eq_ok.mp ending
        exact .concatOperands lowered one two
      · rename_i other
        simp only [bind_eq_ok, pure_eq_ok, lift_eq_ok] at ending
        obtain ⟨count, _, ⟨counted, rfl⟩, rfl, rfl⟩ := ending
        exact .concat lowered other one two counted
  | .unary _ operand .., _, _, _, _, run => by
    simp only [Expression.operands, bind_eq_ok, pure_eq_ok] at run
    obtain ⟨o, _, written, rfl, rfl⟩ := run
    exact .unary (operand.writes_of_operands written)
  | .parenthesized inner _, _, _, _, _, run => by
    simp only [Expression.operands, bind_eq_ok, pure_eq_ok] at run
    obtain ⟨i, _, written, rfl, rfl⟩ := run
    exact .parenthesized (inner.writes_of_operands written)
  | .call target arguments .., _, _, _, _, run => by
    simp only [Expression.operands, bind_eq_ok, pure_eq_ok] at run
    obtain ⟨as, e₁, first, t, _, second, rfl, rfl⟩ := run
    exact .call (writesArguments_of_code arguments first)
      (target.writes_of_operands second)
  | .ternary condition yes no .., _, _, _, _, run => by
    simp only [Expression.operands, bind_eq_ok, pure_eq_ok, lift_eq_ok] at run
    obtain ⟨c, e₁, first, y, e₂, second, skip, _, ⟨past, rfl⟩, n, e₃, third, leave, _,
      ⟨out, rfl⟩, rfl, rfl⟩ := run
    exact .ternary (condition.writes_of_operands first)
      (yes.writes_of_operands second) past (no.writes_of_operands third) out
  | .error _, _, _, _, _, run => nomatch run

theorem writesArguments_of_code :
    ∀ (arguments : List Expression) {e e' : Emission} {code : Code},
      argumentCode symbols arguments e = .ok (code, e') →
        WritesArguments symbols arguments e code e'
  | [], _, _, _, run => by
    rw [argumentCode] at run
    obtain ⟨rfl, rfl⟩ := pure_eq_ok.mp run
    exact .nil
  | x :: rest, _, _, _, run => by
    simp only [argumentCode, bind_eq_ok, pure_eq_ok] at run
    obtain ⟨c, e₁, first, cs, _, others, rfl, rfl⟩ := run
    exact .cons (x.writes_of_operands first) (writesArguments_of_code rest others)

end

/-- An expression has at least one operand. -/
theorem Expression.Writes.ne_nil {symbols : SymbolTable} {x : Expression}
    {chain : Option BinaryOperation} {e e' : Emission} {codes : List Code} :
    x.Writes symbols chain e codes e' → codes ≠ []
  | .testOperands _ left _ => fun empty => left.ne_nil (List.append_eq_nil_iff.mp empty).1
  | .concatOperands _ right _ => fun empty => right.ne_nil (List.append_eq_nil_iff.mp empty).1
  | .literal _ | .reference _ | .assignment _ _ | .apply _ _ _ | .test _ _ _ _ _ | .concat _ _ _ _ _
  | .unary _ | .parenthesized _ | .call _ _ | .ternary _ _ _ _ _ => List.cons_ne_nil _ _

mutual

/-- Expressions only evaluate. -/
theorem Expression.Writes.evaluates {x : Expression} {chain e e' codes} :
    x.Writes symbols chain e codes e' → Code.Evaluates codes.flatten
  | .literal run => by simpa using Emit.evaluates_literal run
  | .reference _ => by simp [Emit.evaluates_load]
  | .assignment value _ => by simp [value.evaluates, Emit.evaluates_store]
  | .apply lowered left right => by
    simp [left.evaluates, right.evaluates, Emit.evaluates_lowering lowered]
  | .testOperands _ left right | .concatOperands _ right left => by
    simp [left.evaluates, right.evaluates]
  | .test _ _ left right run => by
    have joined := Emit.joinTests_joined (List.append_ne_nil_of_left_ne_nil left.ne_nil _) run
    have operands := Emit.evaluates_joined joined.1 (by simp [left.evaluates, right.evaluates])
    simpa using operands
  | .concat _ _ right left _ => by
    simp [left.evaluates, right.evaluates, Machine.Instruction.concat, Machine.Opcode.evaluates]
  | .unary operand => by simp [operand.evaluates, Emit.evaluates_unary]
  | .parenthesized inner => by simpa using inner.evaluates
  | .call arguments target => by
    simp [arguments.evaluates, target.evaluates, Machine.Instruction.call,
      Machine.Instruction.simple, Machine.Opcode.evaluates]
  | .ternary condition yes _ no _ => by
    simp [condition.evaluates, yes.evaluates, no.evaluates, Machine.Instruction.gotoDrop,
      Machine.Instruction.goto, Machine.Instruction.jump, Machine.Opcode.evaluates]

theorem WritesArguments.evaluates {arguments e e' code} :
    WritesArguments symbols arguments e code e' → Code.Evaluates code
  | .nil => by simp
  | .cons first others => by simp [first.evaluates, others.evaluates]

end

mutual

/-- An expression only takes symbols over and adds constants. -/
theorem Expression.Writes.expands {x : Expression} {chain e e' codes} :
    x.Writes symbols chain e codes e' → Emission.Expands symbols e e'
  | .literal run => .literal run
  | .reference run => .resolve run
  | .assignment value run => value.expands.trans (.resolve run)
  | .apply _ left right | .testOperands _ left right
  | .test _ _ left right _ => left.expands.trans right.expands
  | .concatOperands _ right left | .concat _ _ right left _ => right.expands.trans left.expands
  | .unary operand => operand.expands
  | .parenthesized inner => inner.expands
  | .call arguments target => arguments.expands.trans target.expands
  | .ternary condition yes _ no _ => condition.expands.trans (yes.expands.trans no.expands)

theorem WritesArguments.expands {arguments e e' code} :
    WritesArguments symbols arguments e code e' → Emission.Expands symbols e e'
  | .nil => .refl _
  | .cons first others => first.expands.trans others.expands

end

variable {e e' : Emission} {code : Code} {p : Program} {image : Machine.Image}

/-- The code of an expression is that of its operands, put together. -/
theorem Expression.writes_of_emit {symbols : SymbolTable} {x : Expression}
    (run : x.emit symbols e = .ok (code, e')) :
    ∃ codes, code = codes.flatten ∧ x.Writes symbols none e codes e' := by
  simp only [Expression.emit, bind_eq_ok, pure_eq_ok] at run
  obtain ⟨codes, _, written, rfl, rfl⟩ := run
  exact ⟨codes, rfl, x.writes_of_operands written⟩

/-! ### Statements -/

/-- How a body ends: its locals are removed, and a return is added where it is missing. -/
def functionEnding (insertReturn : Bool) (locals : List Local) : Code :=
  if insertReturn then locals.map Local.discard ++ [.pushTrue, .ret]
  else locals.map Local.discard

mutual

/-- `s.Writes symbols loop start e code e'`: at offset `start`, `s` is written as `code`,
which takes `e` to `e'`. -/
inductive Statement.Writes (symbols : SymbolTable) :
    Option Nat → Nat → Statement → Emission → Fragment → Emission → Prop where
  | function {loop start f parameters body insertReturn bodySpan span e store e₁ e₂ code e₃
        value e'} :
      Emit.declare f e = .ok (store, e₁) →
      parameters.forM Emit.putLocal { e₁ with frames := e₁.frames.pushFrame.pushBlock } =
        .ok ((), e₂) →
      WritesList symbols none (start + jumpSize) body { e₂ with frames := e₂.frames.pushBlock }
        code e₃ →
      wrapFunction start parameters.length e₃.frames.popBlock.2.popBlock.2.popFrame.1
        (code ++ (functionEnding insertReturn e₃.frames.popBlock.1).toFragment)
        { e₃ with frames := e₃.frames.popBlock.2.popBlock.2.popFrame.2 } = .ok (value, e') →
      Statement.Writes symbols loop start (.function f parameters body insertReturn bodySpan span)
        e (value ++ store.toFragment) e'
  | declare {loop start s value span e v e₁ store e'} :
      value.Writes symbols none e v e₁ → Emit.declare s e₁ = .ok (store, e') →
      Statement.Writes symbols loop start (.declare s value span) e
        (Code.toFragment (v.flatten ++ store)) e'
  | ifThen {loop start condition yes span e c e₁ y e' skip} :
      condition.Writes symbols none e c e₁ →
      yes.Writes symbols loop (start + Code.size c.flatten + jumpSize) e₁ y e' →
      toDistance (Fragment.size y) = .ok skip →
      Statement.Writes symbols loop start (.ifThen condition yes span) e
        (Code.toFragment c.flatten ++ .instruction (.gotoDrop false skip) :: y) e'
  | ifElse {loop start condition yes no span e c e₁ y e₂ skip n e' leave} :
      condition.Writes symbols none e c e₁ →
      yes.Writes symbols loop (start + Code.size c.flatten + jumpSize) e₁ y e₂ →
      toDistance (Fragment.size y + jumpSize : Nat) = .ok skip →
      no.Writes symbols loop
        (start + Code.size c.flatten + jumpSize + (Fragment.size y + jumpSize)) e₂ n e' →
      toDistance (Fragment.size n) = .ok leave →
      Statement.Writes symbols loop start (.ifElse condition yes no span) e
        (Code.toFragment c.flatten ++ .instruction (.gotoDrop false skip) ::
          (y ++ .instruction (.goto leave) :: n)) e'
  | whileLoop {loop start condition body span e c e₁ b e' code} :
      condition.Writes symbols none e c e₁ →
      body.Writes symbols (some e.frames.current.size)
        (start + Code.size c.flatten + jumpSize) e₁ b e' →
      Fragment.whileLoop c.flatten b = .ok code →
      Statement.Writes symbols loop start (.whileLoop condition body span) e code e'
  | doWhile {loop start body condition span e b e₁ c e' code} :
      body.Writes symbols (some e.frames.current.size) start e b e₁ →
      condition.Writes symbols none e₁ c e' →
      Fragment.doWhile b c.flatten = .ok code →
      Statement.Writes symbols loop start (.doWhile body condition span) e code e'
  | block {loop start statements span e code e'} :
      WritesList symbols loop start statements { e with frames := e.frames.pushBlock } code e' →
      Statement.Writes symbols loop start (.block statements span) e
        (code ++ Code.toFragment (e'.frames.popBlock.1.map Local.discard))
        { e' with frames := e'.frames.popBlock.2 }
  | returnsUnit {loop start span e} :
      Statement.Writes symbols loop start (.returns none span) e
        (Code.toFragment [.pushTrue, .ret]) e
  | returns {loop start value span e v e'} : value.Writes symbols none e v e' →
      Statement.Writes symbols loop start (.returns (some value) span) e
        (Code.toFragment (v.flatten ++ [.ret])) e'
  | breakLoop {base start span e} :
      Statement.Writes symbols (some base) start (.breakLoop span) e
        (Code.toFragment ((e.frames.current.localsFrom base).map Local.discard) ++
          [.exit .breaks]) e
  | continueLoop {base start span e} :
      Statement.Writes symbols (some base) start (.continueLoop span) e
        (Code.toFragment ((e.frames.current.localsFrom base).map Local.discard) ++
          [.exit .continues]) e
  | print {loop start value span e v e'} : value.Writes symbols none e v e' →
      Statement.Writes symbols loop start (.print value span) e
        (Code.toFragment (v.flatten ++ [.print])) e'
  | expression {loop start value span e v e'} : value.Writes symbols none e v e' →
      Statement.Writes symbols loop start (.expression value span) e
        (Code.toFragment (v.flatten ++ [.pop])) e'

/-- Statements are written one after the other. -/
inductive WritesList (symbols : SymbolTable) :
    Option Nat → Nat → List Statement → Emission → Fragment → Emission → Prop where
  | nil {loop start e} : WritesList symbols loop start [] e [] e
  | cons {loop start s rest e c e₁ cs e'} : s.Writes symbols loop start e c e₁ →
      WritesList symbols loop (start + Fragment.size c) rest e₁ cs e' →
      WritesList symbols loop start (s :: rest) e (c ++ cs) e'

end

/-- A function is wrapped into a jump past it, its pointer and its closure. -/
theorem wrapFunction_eq_ok {start arity : Nat} {captures : List Machine.Capture}
    {body code : Fragment} (run : wrapFunction start arity captures body e = .ok (code, e')) :
    ∃ (skip : Int16) (entry : UInt16) (count : UInt8) (value : Instruction) (closure : Code),
      skip.toInt = Fragment.size body ∧ toWord16 .functionEntry (start + jumpSize) = .ok entry ∧
      Machine.toWord8 .functionArity arity = .ok count ∧
      Emit.constant (.function entry count) e = .ok (value, e') ∧
      Emit.closure captures = .ok closure ∧
      code = .instruction (.goto skip) :: (body ++ Code.toFragment (value :: closure)) := by
  simp only [wrapFunction, bind_eq_ok, pure_eq_ok, lift_eq_ok] at run
  obtain ⟨skip, _, ⟨past, rfl⟩, entry, _, ⟨entered, rfl⟩, count, _, ⟨counted, rfl⟩, value, _, added,
    closure, _, ⟨closed, rfl⟩, rfl, rfl⟩ := run
  exact ⟨skip, entry, count, value, closure, Machine.toDistance_eq_ok past, entered, counted,
    added, closed, rfl⟩

/-- A jump out of a loop is only written inside one. -/
theorem leaveLoop_eq_ok {loop : Option Nat} {exit : Machine.LoopExit} {span : Span}
    {code : Fragment} (run : leaveLoop loop exit span e = .ok (code, e')) :
    ∃ base, loop = some base ∧ e' = e ∧ code =
      Code.toFragment ((e.frames.current.localsFrom base).map Local.discard) ++ [.exit exit] := by
  cases loop with
  | none => cases run
  | some base =>
    simp only [leaveLoop, bind_eq_ok, pure_eq_ok] at run
    obtain ⟨_, _, discarded, rfl, rfl⟩ := run
    cases discarded
    exact ⟨base, rfl, rfl, rfl⟩

mutual

/-- The code of a statement was written by one of the rules. -/
theorem Statement.writes_of_emit :
    ∀ (s : Statement) {loop : Option Nat} {start : Nat} {e e' : Emission} {code : Fragment},
      s.emit symbols loop start e = .ok (code, e') → s.Writes symbols loop start e code e'
  | .function _ _ body .., _, _, _, _, _, run => by
    simp only [Statement.emit, bind_eq_ok, pure_eq_ok] at run
    obtain ⟨store, e₁, declared, _, _, entered, _, _, opened, _, e₂, put, _, _, opened', inner, e₃,
      written, discard, _, left, _, _, left', captures, _, popped, value, _, wrapped, rfl, rfl⟩ :=
      run
    cases entered
    cases opened
    cases opened'
    cases left
    cases left'
    cases popped
    obtain ⟨_, rfl, body'⟩ := writesList_of_emit body written
    exact .function declared put body' wrapped
  | .declare .., _, _, _, _, _, run => by
    simp only [Statement.emit, bind_eq_ok, pure_eq_ok] at run
    obtain ⟨_, e₁, written, store, _, declared, rfl, rfl⟩ := run
    obtain ⟨v, rfl, first⟩ := Expression.writes_of_emit written
    exact .declare first declared
  | .ifThen _ yes _, _, _, _, _, _, run => by
    simp only [Statement.emit, bind_eq_ok, pure_eq_ok, lift_eq_ok] at run
    obtain ⟨_, e₁, tested, y, _, written, skip, _, ⟨past, rfl⟩, rfl, rfl⟩ := run
    obtain ⟨c, rfl, first⟩ := Expression.writes_of_emit tested
    exact .ifThen first (yes.writes_of_emit written) past
  | .ifElse _ yes no _, _, _, _, _, _, run => by
    simp only [Statement.emit, bind_eq_ok, pure_eq_ok, lift_eq_ok] at run
    obtain ⟨_, e₁, tested, y, e₂, written, skip, _, ⟨past, rfl⟩, n, e₃, written', leave, _,
      ⟨out, rfl⟩, rfl, rfl⟩ := run
    obtain ⟨c, rfl, first⟩ := Expression.writes_of_emit tested
    exact .ifElse first (yes.writes_of_emit written) past
      (no.writes_of_emit written') out
  | .whileLoop _ body _, _, _, _, _, _, run => by
    simp only [Statement.emit, bind_eq_ok, lift_eq_ok] at run
    obtain ⟨base, _, counted, _, e₁, tested, b, e₂, written, closed, rfl⟩ := run
    cases counted
    obtain ⟨c, rfl, first⟩ := Expression.writes_of_emit tested
    exact .whileLoop first (body.writes_of_emit written) closed
  | .doWhile body .., _, _, _, _, _, run => by
    simp only [Statement.emit, bind_eq_ok, lift_eq_ok] at run
    obtain ⟨base, _, counted, b, e₁, written, _, e₂, tested, closed, rfl⟩ := run
    cases counted
    obtain ⟨c, rfl, second⟩ := Expression.writes_of_emit tested
    exact .doWhile (body.writes_of_emit written) second closed
  | .block statements _, _, _, _, _, _, run => by
    simp only [Statement.emit, bind_eq_ok, pure_eq_ok] at run
    obtain ⟨_, _, opened, inner, e₁, written, discard, _, left, rfl, rfl⟩ := run
    cases opened
    cases left
    obtain ⟨_, rfl, statements'⟩ := writesList_of_emit statements written
    exact .block statements'
  | .returns none _, _, _, _, _, _, run => by
    simp only [Statement.emit, bind_eq_ok, pure_eq_ok] at run
    obtain ⟨_, _, ⟨rfl, rfl⟩, rfl, rfl⟩ := run
    exact .returnsUnit
  | .returns (some _) _, _, _, _, _, _, run => by
    simp only [Statement.emit, bind_eq_ok, pure_eq_ok] at run
    obtain ⟨_, _, written, rfl, rfl⟩ := run
    obtain ⟨v, rfl, first⟩ := Expression.writes_of_emit written
    exact .returns first
  | .breakLoop _, _, _, _, _, _, run => by
    obtain ⟨base, rfl, rfl, rfl⟩ := leaveLoop_eq_ok run
    exact .breakLoop
  | .continueLoop _, _, _, _, _, _, run => by
    obtain ⟨base, rfl, rfl, rfl⟩ := leaveLoop_eq_ok run
    exact .continueLoop
  | .print .., _, _, _, _, _, run => by
    simp only [Statement.emit, bind_eq_ok, pure_eq_ok] at run
    obtain ⟨_, _, written, rfl, rfl⟩ := run
    obtain ⟨v, rfl, first⟩ := Expression.writes_of_emit written
    exact .print first
  | .expression .., _, _, _, _, _, run => by
    simp only [Statement.emit, bind_eq_ok, pure_eq_ok] at run
    obtain ⟨_, _, written, rfl, rfl⟩ := run
    obtain ⟨v, rfl, first⟩ := Expression.writes_of_emit written
    exact .expression first

theorem writesList_of_emit :
    ∀ (statements : List Statement) {loop : Option Nat} {start : Nat} {written : Fragment}
      {e e' : Emission} {code : Fragment},
      emitList symbols loop start written statements e = .ok (code, e') →
        ∃ cs, code = written.reverse ++ cs ∧ WritesList symbols loop start statements e cs e'
  | [], _, _, _, _, _, _, run => by
    rw [emitList] at run
    obtain ⟨rfl, rfl⟩ := pure_eq_ok.mp run
    exact ⟨[], (List.append_nil _).symm, .nil⟩
  | s :: rest, _, _, _, _, _, _, run => by
    simp only [emitList, bind_eq_ok] at run
    obtain ⟨c, e₁, first, others⟩ := run
    obtain ⟨cs, rfl, tail⟩ := writesList_of_emit rest others
    refine ⟨c ++ cs, ?_, .cons (s.writes_of_emit first) tail⟩
    simp [List.reverseAux_eq]

end

/-- The code of a program is that of its statements, and the end of the program. -/
theorem Program.writes_of_emitCode (run : p.emitCode = .ok (code, e)) :
    ∃ f, code = Fragment.toCode f ++ [.halt] ∧
      WritesList p.symbols none 0 p.statements .empty f e := by
  unfold Program.emitCode at run
  obtain ⟨_, written, ended⟩ := except_bind_eq_ok.mp run
  cases ended
  obtain ⟨_, rfl, statements⟩ := writesList_of_emit p.statements written
  exact ⟨_, rfl, statements⟩

/-- An image has the constants that the code names, the number of its globals, and the code. -/
theorem Program.emit_eq_ok (run : p.emit = .ok image) :
    ∃ code e count, p.emitCode = .ok (code, e) ∧
      toWord16 .globalCount e.globals.size = .ok count ∧
      image = ⟨e.constants, count, Machine.encodeAll code⟩ := by
  unfold Program.emit at run
  obtain ⟨⟨code, e⟩, written, run⟩ := except_bind_eq_ok.mp run
  obtain ⟨count, counted, ended⟩ := except_bind_eq_ok.mp run
  cases ended
  exact ⟨code, e, count, written, counted, rfl⟩

/-- An image has the code of its program and the constants that the code names. -/
theorem Program.emitCode_of_emit (run : p.emit = .ok image) :
    ∃ code e, p.emitCode = .ok (code, e) ∧ image.constants = e.constants ∧
      image.code = Machine.encodeAll code := by
  obtain ⟨code, e, count, written, _, rfl⟩ := Program.emit_eq_ok run
  exact ⟨code, e, written, rfl, rfl⟩

end Bindery.Bound
