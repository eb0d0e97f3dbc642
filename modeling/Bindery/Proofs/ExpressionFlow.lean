import Bindery.Proofs.Flow
import Bindery.Proofs.Slots

/-!
Heights in the code of expressions.

The code of an expression leaves one value on the stack, whatever lies below it. The locals of
the current function lie below, so that they can be read and written meanwhile. `Emit.Moves`
says this of code in general, `Emit.Operands` of the operands of a chain, and
`Expression.Writes.operands` of every expression that is written.
-/

namespace Bindery.Emit

open Fragment (Flows)
open Machine (Instruction Opcode)

variable {code : Code}

/-! ### Code with an effect on the stack -/

/-- `Moves room code calls i j`: above any `room` values or more, the code finds `i` values
and leaves `j`; its calls have the numbers `calls` of arguments. -/
def Moves (room : Nat) (code : Code) (calls : List Nat) (i j : Nat) : Prop :=
  ∀ loop start h, room ≤ h →
    Flows loop ∅ ∅ start code.toFragment calls (some (h + i)) (some (h + j))

namespace Moves

variable {room i j k : Nat} {c d : Code} {calls calls' : List Nat}

theorem nil (room i : Nat) : Moves room [] [] i i := fun loop start _ _ => .nil loop start _

/-- One code after the other. -/
theorem append (left : Moves room c calls i j) (right : Moves room d calls' j k) :
    Moves room (c ++ d) (calls ++ calls') i k := by
  intro loop start h enough
  rw [Code.toFragment_append]
  exact (left loop start h enough).seq _ (right loop _ h enough) rfl (Set.empty_subset _)
    (Set.empty_subset _)

/-- Code without calls behind other code. -/
theorem finish (left : Moves room c calls i j) (right : Moves room d [] j k) :
    Moves room (c ++ d) calls i k := by
  rw [← List.append_nil calls]
  exact left.append right

/-- Code does not mind further values below. -/
theorem above (h : Moves room c calls i j) (n : Nat) : Moves room c calls (n + i) (n + j) := by
  intro loop start below enough
  rw [← Nat.add_assoc, ← Nat.add_assoc]
  exact h loop start (below + n) (Nat.le_add_right_of_le enough)

/-- An instruction behind which the next one follows. -/
theorem plain {i : Instruction} {n j k : Nat} (straight : ∀ d, i.operand ≠ .jump d)
    (runs : i.opcode.runsOn = true) (enough : i.takes n ≤ j)
    (changed : k + i.takes n = j + i.opcode.gives false)
    (locals : ∀ slot, i.slot? = some slot → slot.toNat < room) :
    Moves room [i] (if i.opcode == .call then [n] else []) j k := by
  intro loop start h below
  refine .plain straight runs (by omega) (by omega) fun slot used => ?_
  have := locals slot used
  omega

/-- An instruction without an operand, other than a call. -/
theorem simple (room : Nat) (op : Opcode) (layout : op.shape = .none)
    (fits : op.runsOn = true ∧ op ≠ .call ∧ op.takes 0 ≤ j ∧ k + op.takes 0 = j + op.gives false) :
    Moves room [.simple op layout] [] j k := by
  obtain ⟨runs, noCall, enough, changed⟩ := fits
  have moves : Moves room [.simple op layout] (if op == .call then [0] else []) j k :=
    plain nofun runs enough changed fun slot used => by
      unfold Instruction.slot? Instruction.simple at used
      split at used <;> simp_all
  rw [if_neg (by simpa using noCall)] at moves
  exact moves

/-- An operation takes two values and leaves one. -/
theorem lowering {op : BinaryOperation} (room : Nat) (lowered : op.lowering = .apply c) :
    Moves room c [] 2 1 := by
  have negated : ∀ op layout, op.runsOn = true ∧ op ≠ .call ∧ op.takes 0 ≤ 2 ∧
      1 + op.takes 0 = 2 + op.gives false → Moves room [.simple op layout, .not] [] 2 1 :=
    fun op layout fits =>
      (simple room op layout fits).append (simple room .not rfl (by decide))
  cases op <;> cases lowered
  case notEquals => exact negated _ _ (by decide)
  case greaterThanEqual => exact negated _ _ (by decide)
  case lessThanEqual => exact negated _ _ (by decide)
  all_goals exact simple room _ rfl (by decide)

theorem unary (room : Nat) (op : UnaryOperation) : Moves room op.code [] 1 1 := by
  cases op
  case identity => exact nil room 1
  case negation => exact simple room .neg rfl (by decide)
  case logicalNegation => exact simple room .not rfl (by decide)

/-- A call takes its arguments and the function, and leaves the result. -/
theorem call (room n : Nat) : Moves room [.call] [n] (n + 1) 1 :=
  plain nofun rfl (Nat.le_refl _) (Nat.add_comm ..) nofun

theorem concat {n : Nat} {count : UInt16} (room : Nat) (counted : count.toNat = n) :
    Moves room [.concat count] [] n 1 := by
  refine plain (n := 0) nofun rfl (Nat.le_of_eq counted) ?_ nofun
  change 1 + count.toNat = n + 1
  omega

theorem constant {c : Machine.Constant} {value : Instruction} {e e' : Emission} (room : Nat)
    (run : Emit.constant c e = .ok (value, e')) : Moves room [value] [] 0 1 := by
  obtain ⟨_, _, _, rfl, _⟩ := constant_eq_ok run
  exact plain (n := 0) nofun rfl (Nat.zero_le _) rfl nofun

/-- Removing locals takes as many values from the stack. -/
theorem discards (room : Nat) (locals : List Storage.Local) :
    Moves room (locals.map Storage.Local.discard) [] locals.length 0 := by
  induction locals with
  | nil => exact nil room 0
  | cons l rest ih =>
    have first : Moves room [l.discard] [] (rest.length + 1) rest.length := by
      unfold Storage.Local.discard
      split
      · exact (simple (j := 1) (k := 0) room .closeFree rfl (by decide)).above _
      · exact (simple (j := 1) (k := 0) room .pop rfl (by decide)).above _
    exact first.append ih

end Moves

/-! ### Chains -/

/-- Every operand of a chain leaves one value. -/
inductive Operands (room : Nat) : List Code → List Nat → Prop where
  | nil : Operands room [] []
  | cons {c rest calls others} : Moves room c calls 0 1 → Operands room rest others →
      Operands room (c :: rest) (calls ++ others)

namespace Operands

variable {room : Nat} {codes others : List Code} {calls calls' : List Nat} {c : Code}

theorem single (h : Moves room c calls 0 1) : Operands room [c] calls := by
  rw [← List.append_nil calls]
  exact .cons h .nil

theorem append (left : Operands room codes calls) (right : Operands room others calls') :
    Operands room (codes ++ others) (calls ++ calls') := by
  induction left with
  | nil => exact right
  | cons first _ ih =>
    rw [List.append_assoc]
    exact .cons first ih

/-- One after the other, operands leave as many values as they are. -/
theorem flatten (h : Operands room codes calls) :
    Moves room codes.flatten calls 0 codes.length := by
  induction h with
  | nil => exact .nil room 0
  | @cons _ rest _ _ first _ ih =>
    have behind := ih.above 1
    rw [Nat.add_comm 1 rest.length] at behind
    exact first.append behind

/-- A single operand leaves one value. -/
theorem pushes (h : Operands room codes calls) (one : codes.length = 1) :
    Moves room codes.flatten calls 0 1 :=
  one ▸ h.flatten

/-- Tests between operands leave one value, that of the operand at which they end. -/
theorem joined {value : Bool} (chain : Joined value codes code) (h : Operands room codes calls) :
    Moves room code calls 0 1 := by
  induction chain generalizing calls with
  | last =>
    cases h with
    | cons only others =>
      cases others
      rw [List.append_nil]
      exact only
  | @test operand _ code d _ leads ih =>
    cases h with
    | cons first others =>
      intro loop start h below
      have tail := ih others loop (start + operand.size + jumpSize) h below
      have jump : Flows loop
          (Fragment.At (start + operand.size + jumpSize + code.size) (some (h + 1))) ∅
          (start + operand.size) [.instruction (.gotoOrDrop value d)] [] (some (h + 1)) (some h) :=
        .gotoOrDrop (by push_cast at leads ⊢; omega)
      have jumps : Fragment.size [.instruction (.gotoOrDrop value d)] = jumpSize := by
        simp [Item.size]
      have behind := jump.seq ∅ tail (by omega)
        (by rw [Fragment.size_toFragment]; exact Set.subset_union_right) (Set.empty_subset _)
      rw [Code.toFragment_append, Code.toFragment_cons]
      exact (first loop start h below).seq _ behind (by rw [Fragment.size_toFragment])
        (Set.empty_subset _) (Set.empty_subset _)

end Operands

end Bindery.Emit

namespace Bindery.Bound

open Emit (Code Moves Operands)
open Emit.Fragment (Flows)

variable {code : Code}

/-! ### Expressions -/

mutual

/-- The numbers of arguments of the calls in an expression, in the order of their code: what
is concatenated runs from the last operand to the first, and the arguments of a call run
before the expression for the function. -/
def Expression.callArguments : Expression → List Nat
  | .literal .. => []
  | .reference .. => []
  | .assignment _ value .. => value.callArguments
  | .binary op left right .. =>
    match op.lowering with
    | .concat => right.callArguments ++ left.callArguments
    | _ => left.callArguments ++ right.callArguments
  | .unary _ operand .. => operand.callArguments
  | .parenthesized inner _ => inner.callArguments
  | .call target arguments .. =>
    callArgumentsOfAll arguments ++ (target.callArguments ++ [arguments.length])
  | .ternary condition yes no .. =>
    condition.callArguments ++ (yes.callArguments ++ no.callArguments)
  | .error _ => []

def callArgumentsOfAll : List Expression → List Nat
  | [] => []
  | x :: rest => x.callArguments ++ callArgumentsOfAll rest

end

variable {symbols : SymbolTable} {e e' : Emission} {slot : Storage.Slot} {room : Nat}

/-- An expression that belongs to no chain is its own only operand. -/
theorem Expression.Writes.length_eq_one {x : Expression} {codes : List Code}
    (run : x.Writes symbols none e codes e') : codes.length = 1 := by
  cases run <;> rfl

/-- A local is used where it lies on the stack. -/
theorem slot_lt_of_resolve {s : SymbolId} (dense : e.Dense)
    (run : Emit.resolve symbols s e = .ok (slot, e')) (inside : slot.kind = .localSlot) :
    slot.index.toNat < e.locals := by
  rcases Emit.resolve_eq_ok run with ⟨l, found, rfl, _⟩ | ⟨_, _, _, rfl, _⟩ | ⟨_, rfl, _⟩
  · exact (dense _ List.mem_cons_self).index_lt found
  · cases inside
  · cases inside

/-- A local that is read lies on the stack. -/
theorem moves_load (inside : slot.kind = .localSlot → slot.index.toNat < room) :
    Moves room [Emit.load slot] [] 0 1 := by
  obtain ⟨kind, index⟩ := slot
  cases kind with
  | global | free => exact .plain (n := 0) nofun rfl (Nat.zero_le _) rfl nofun
  | localSlot =>
    refine .plain (n := 0) nofun rfl (Nat.zero_le _) rfl fun used same => ?_
    cases same
    exact inside rfl

theorem moves_store (inside : slot.kind = .localSlot → slot.index.toNat < room) :
    Moves room [Emit.store slot] [] 1 1 := by
  obtain ⟨kind, index⟩ := slot
  cases kind with
  | global | free => exact .plain (n := 0) nofun rfl (Nat.le_refl _) rfl nofun
  | localSlot =>
    refine .plain (n := 0) nofun rfl (Nat.le_refl _) rfl fun used same => ?_
    cases same
    exact inside rfl

/-- A literal leaves one value. -/
theorem moves_literal {value : Literal} (run : Emit.literal value e = .ok (code, e')) :
    Moves room code [] 0 1 := by
  rcases Emit.literal_eq_ok run with ⟨rfl | rfl, _⟩ | ⟨_, i, _, added, rfl⟩
  · exact .simple room .pushTrue rfl (by decide)
  · exact .simple room .pushFalse rfl (by decide)
  · exact .constant room added

mutual

/-- The operands of an expression each leave one value above the locals. -/
theorem Expression.Writes.operands {x : Expression} {chain e e' codes} :
    x.Writes symbols chain e codes e' → e.Dense → Operands e.locals codes x.callArguments
  | .literal run, _ => .single (moves_literal run)
  | .reference run, dense => .single (moves_load (slot_lt_of_resolve dense run))
  | .assignment value run, dense => by
    have first := (value.operands dense).pushes value.length_eq_one
    have inside := slot_lt_of_resolve (value.dense dense) run
    rw [Emission.locals_of_contents value.contents] at inside
    exact .single (first.finish (moves_store inside))
  | .apply lowered left right, dense => by
    have first := (left.operands dense).pushes left.length_eq_one
    have second := (right.operands (left.dense dense)).pushes right.length_eq_one
    rw [Emission.locals_of_contents left.contents] at second
    rw [Expression.callArguments, lowered]
    exact .single (first.append ((second.above 1).finish (.lowering _ lowered)))
  | .testOperands lowered left right, dense => by
    have second := right.operands (left.dense dense)
    rw [Emission.locals_of_contents left.contents] at second
    rw [Expression.callArguments, lowered]
    exact (left.operands dense).append second
  | .test lowered _ left right run, dense => by
    have second := right.operands (left.dense dense)
    rw [Emission.locals_of_contents left.contents] at second
    have chain := Emit.joinTests_joined (List.append_ne_nil_of_left_ne_nil left.ne_nil _) run
    rw [Expression.callArguments, lowered]
    exact .single (((left.operands dense).append second).joined chain.1)
  | .concatOperands lowered right left, dense => by
    have second := left.operands (right.dense dense)
    rw [Emission.locals_of_contents right.contents] at second
    rw [Expression.callArguments, lowered]
    exact (right.operands dense).append second
  | .concat lowered _ right left counted, dense => by
    have second := left.operands (right.dense dense)
    rw [Emission.locals_of_contents right.contents] at second
    have pushed := ((right.operands dense).append second).flatten
    rw [Expression.callArguments, lowered]
    exact .single (pushed.finish (.concat _ (Machine.toWord16_eq_ok counted)))
  | .unary operand, dense => by
    have first := (operand.operands dense).pushes operand.length_eq_one
    exact .single (first.finish (.unary _ _))
  | .parenthesized inner, dense => .single ((inner.operands dense).pushes inner.length_eq_one)
  | .call arguments target, dense => by
    have first := arguments.moves dense
    have second := (target.operands (arguments.expands.dense dense)).pushes target.length_eq_one
    rw [Emission.locals_of_contents arguments.expands.contents] at second
    exact .single (first.append ((second.above _).append (.call _ _)))
  | .ternary condition yes past no out, dense => by
    have test := (condition.operands dense).pushes condition.length_eq_one
    have first := (yes.operands (condition.dense dense)).pushes yes.length_eq_one
    have second := (no.operands (yes.dense (condition.dense dense))).pushes no.length_eq_one
    rw [Emission.locals_of_contents yes.contents] at second
    rw [Emission.locals_of_contents condition.contents] at first second
    refine .single fun loop start h below => ?_
    rw [Code.toFragment_append, Code.toFragment_cons, Code.toFragment_append,
      Code.toFragment_cons]
    refine (Flows.branch (test loop start h below) (first loop _ h below) rfl ?_
      (second loop _ h below) rfl ?_).weaken (Set.empty_subset _)
    · rw [Emit.Fragment.size_toFragment, Machine.toDistance_eq_ok past]
    · rw [Emit.Fragment.size_toFragment, Machine.toDistance_eq_ok out]

theorem WritesArguments.moves {arguments e e' code} :
    WritesArguments symbols arguments e code e' → e.Dense →
      Moves e.locals code (callArgumentsOfAll arguments) 0 arguments.length
  | .nil, _ => .nil _ 0
  | .cons first others, dense => by
    have one := (first.operands dense).pushes first.length_eq_one
    have more := (others.moves (first.dense dense)).above 1
    rw [Emission.locals_of_contents first.contents, Nat.add_comm 1 (List.length _)] at more
    exact one.append more

end

/-- The code of an expression leaves one value above the locals. -/
theorem Expression.Writes.pushes {symbols : SymbolTable} {x : Expression} {e e' : Emission}
    {codes : List Code} (run : x.Writes symbols none e codes e') (dense : e.Dense) :
    Moves e.locals codes.flatten x.callArguments 0 1 :=
  (run.operands dense).pushes run.length_eq_one

end Bindery.Bound
