import Mathlib.Logic.Function.Basic
import Mathlib.Logic.Relation
import Bindery.Emit.Emission
import Bindery.Machine.Image
import Bindery.Proofs.Decoding

/-!
Running code.

The machine runs the code of one function, or of the program outside all functions: it
reads an instruction at its place, changes the cells that it can reach, and goes on. What
values are is left open (`Values`). A call and the making of a closure lead to other
functions, so the machine stops there, as it does at a return and at the end of the program.
Instructions that were encoded are read back where they stand (`fetch_encodeAll`), and what
one of them does is said by a lemma for each kind of instruction.
-/

namespace Bindery.Machine

open Storage (Slot)

/-- Values, and what the primitive operations make of them. The operations are any functions,
except that concatenation is associative. -/
structure Values (V : Type) where
  boolean : Bool → V
  constant : Constant → V
  /-- Whether a test takes a value for true. -/
  isTrue : V → Bool
  add : V → V → V
  sub : V → V → V
  mul : V → V → V
  div : V → V → V
  greater : V → V → V
  equals : V → V → V
  less : V → V → V
  neg : V → V
  not : V → V
  concat : V → V → V
  concat_assoc : ∀ a b c, concat (concat a b) c = concat a (concat b c)

namespace Values

variable {V : Type}

/-- What an instruction makes of the two topmost values, the lower one first. -/
def binary? (ops : Values V) : Opcode → Option (V → V → V)
  | .add => some ops.add
  | .sub => some ops.sub
  | .mul => some ops.mul
  | .div => some ops.div
  | .greater => some ops.greater
  | .equals => some ops.equals
  | .less => some ops.less
  | _ => none

def unary? (ops : Values V) : Opcode → Option (V → V)
  | .neg => some ops.neg
  | .not => some ops.not
  | _ => none

def join (ops : Values V) : List V → Option V
  | [] => none
  | v :: rest => some (rest.foldl ops.concat v)

end Values

/-! ### Cells -/

/-- The cells that a function can reach: its stack, the top first, the variables that it has
taken over, and the globals. -/
structure Cells (V : Type) where
  stack : List V
  free : UInt16 → Option V
  globals : UInt16 → Option V

namespace Cells

variable {V : Type}

def push (cells : Cells V) (values : List V) : Cells V :=
  { cells with stack := values ++ cells.stack }

/-- The value in a slot. The locals of a function have the slots from the bottom of its stack
upwards. -/
def load (cells : Cells V) (slot : Slot) : Option V :=
  match slot.kind with
  | .localSlot => cells.stack.reverse[slot.index.toNat]?
  | .free => cells.free slot.index
  | .global => cells.globals slot.index

def store (cells : Cells V) (slot : Slot) (v : V) : Option (Cells V) :=
  match slot.kind with
  | .localSlot =>
    if slot.index.toNat < cells.stack.length then
      some { cells with stack := (cells.stack.reverse.set slot.index.toNat v).reverse }
    else none
  | .free => some { cells with free := Function.update cells.free slot.index (some v) }
  | .global => some { cells with globals := Function.update cells.globals slot.index (some v) }

@[simp] theorem push_nil (cells : Cells V) : cells.push [] = cells := rfl

@[simp] theorem push_push (cells : Cells V) (lower upper : List V) :
    (cells.push lower).push upper = cells.push (upper ++ lower) := by
  simp [push]

@[simp] theorem stack_push (cells : Cells V) (values : List V) :
    (cells.push values).stack = values ++ cells.stack := rfl

variable {cells : Cells V} {slot : Slot} {v : V}

/-- A value is found below others that were put on the stack later. -/
theorem load_push (here : cells.load slot = some v) (values : List V) :
    (cells.push values).load slot = some v := by
  unfold load at here ⊢
  cases kind : slot.kind with
  | localSlot =>
    simp only [kind] at here ⊢
    have within := (List.getElem?_eq_some_iff.mp here).1
    rw [stack_push, List.reverse_append, List.getElem?_append_left within]
    exact here
  | free | global =>
    simp only [kind] at here ⊢
    exact here

/-- A value is replaced below others that were put on the stack later. -/
theorem store_push {cells' : Cells V} (run : cells.store slot v = some cells') (values : List V) :
    (cells.push values).store slot v = some (cells'.push values) := by
  unfold store at run ⊢
  cases kind : slot.kind with
  | localSlot =>
    simp only [kind] at run ⊢
    split at run
    · rename_i within
      cases run
      rw [stack_push, if_pos (by rw [List.length_append]; omega), List.reverse_append,
        List.set_append_left _ _ (by rw [List.length_reverse]; exact within)]
      simp [push]
    · cases run
  | free | global =>
    simp only [kind] at run ⊢
    cases run
    rfl

end Cells

/-! ### Steps -/

/-- Where the machine is, what its cells hold, and what it has printed, the oldest first. -/
structure State (V : Type) where
  pc : Nat
  cells : Cells V
  printed : List V

namespace State

variable {V : Type}

def initial : State V := ⟨0, ⟨[], fun _ => none, fun _ => none⟩, []⟩

def pass (s : State V) (i : Instruction) (cells : Cells V) : State V :=
  { s with pc := s.pc + i.size, cells }

def jump (s : State V) (i : Instruction) (d : Int16) (cells : Cells V) : Option (State V) :=
  (Int.toNat? ((s.pc + i.size : Nat) + d.toInt)).map fun pc => { s with pc, cells }

/-- Jumps if the tested value is the expected one, and goes on otherwise. -/
def test (s : State V) (i : Instruction) (d : Int16) (jumps : Bool) (taken passed : Cells V) :
    Option (State V) :=
  if jumps then s.jump i d taken else some (s.pass i passed)

def execute (ops : Values V) (constants : ConstantPool) (i : Instruction) (s : State V) :
    Option (State V) :=
  let cells := s.cells
  let drop (stack : List V) : Cells V := { cells with stack }
  match i.opcode, i.operand, cells.stack with
  | .gotoFalseOrDrop, .jump d, v :: rest => s.test i d (!ops.isTrue v) cells (drop rest)
  | .gotoTrueOrDrop, .jump d, v :: rest => s.test i d (ops.isTrue v) cells (drop rest)
  | .gotoDropFalse, .jump d, v :: rest => s.test i d (!ops.isTrue v) (drop rest) (drop rest)
  | .gotoDropTrue, .jump d, v :: rest => s.test i d (ops.isTrue v) (drop rest) (drop rest)
  | .goto, .jump d, _ => s.jump i d cells
  | .pushFalse, _, _ => some (s.pass i (cells.push [ops.boolean false]))
  | .pushTrue, _, _ => some (s.pass i (cells.push [ops.boolean true]))
  | .constant, .index n, _ =>
    (constants.get? n.toNat).map fun c => s.pass i (cells.push [ops.constant c])
  | .getGlobal, .index n, _ => (cells.load ⟨.global, n⟩).map fun v => s.pass i (cells.push [v])
  | .getFree, .index n, _ => (cells.load ⟨.free, n⟩).map fun v => s.pass i (cells.push [v])
  | .getLocal, .index n, _ => (cells.load ⟨.localSlot, n⟩).map fun v => s.pass i (cells.push [v])
  | .setGlobal, .index n, v :: _ => (cells.store ⟨.global, n⟩ v).map (s.pass i)
  | .setFree, .index n, v :: _ => (cells.store ⟨.free, n⟩ v).map (s.pass i)
  | .setLocal, .index n, v :: _ => (cells.store ⟨.localSlot, n⟩ v).map (s.pass i)
  | .concat, .count n, stack =>
    if n.toNat ≤ stack.length then
      (ops.join (stack.take n.toNat)).map fun v => s.pass i (drop (v :: stack.drop n.toNat))
    else none
  | .print, _, v :: rest => some { s.pass i (drop rest) with printed := s.printed ++ [v] }
  -- A captured local goes on in a cell of its own, which this function does not reach.
  | .closeFree, _, _ :: rest | .pop, _, _ :: rest => some (s.pass i (drop rest))
  | .call, _, _ | .closure, _, _ | .ret, _, _ | .halt, _, _ => none
  | op, _, top :: rest =>
    match ops.unary? op, ops.binary? op, rest with
    | some f, _, _ => some (s.pass i (drop (f top :: rest)))
    | none, some f, lower :: rest => some (s.pass i (drop (f lower top :: rest)))
    | none, _, _ => none
  | _, _, _ => none

end State

def fetch (code : List UInt8) (pc : Nat) : Option Instruction :=
  match Reader.instruction ⟨pc, code.drop pc⟩ with
  | .ok (i, _) => some i
  | .error _ => none

def step {V : Type} (ops : Values V) (image : Image) (s : State V) : Option (State V) :=
  (fetch image.code s.pc).bind (s.execute ops image.constants)

def Reaches {V : Type} (ops : Values V) (image : Image) : State V → State V → Prop :=
  Relation.ReflTransGen fun s t => step ops image s = some t

/-! ### Single steps -/

section Steps

variable {V : Type} {ops : Values V} {image : Image} {pc : Nat} {cells cells' : Cells V}
    {values printed : List V}

theorem Reaches.refl (s : State V) : Reaches ops image s s := Relation.ReflTransGen.refl

theorem Reaches.trans {s t u : State V} (first : Reaches ops image s t)
    (second : Reaches ops image t u) : Reaches ops image s u :=
  Relation.ReflTransGen.trans first second

variable {s : State V} {i : Instruction} {t : Nat} {d : Int16} {value : Bool} {v : V} {slot : Slot}
    {n : UInt16} {op : Opcode}

/-- The same place can be written in another way. -/
theorem Reaches.at {pc' : Nat} (run : Reaches ops image s ⟨pc, cells, printed⟩) (same : pc = pc') :
    Reaches ops image s ⟨pc', cells, printed⟩ :=
  same ▸ run

/-- An instruction is one step. -/
theorem reaches_of_execute {t : State V} (here : fetch image.code s.pc = some i)
    (run : s.execute ops image.constants i = some t) : Reaches ops image s t := by
  refine Relation.ReflTransGen.single ?_
  rw [step, here]
  exact run

theorem toNat?_eq_some {n : Int} (same : n = t) : Int.toNat? n = some t := by
  subst same
  rfl

/-- A jump changes nothing but the place. -/
theorem reaches_goto (here : fetch image.code pc = some (.goto d))
    (leads : ((pc + (Instruction.goto d).size : Nat) : Int) + d.toInt = t) :
    Reaches ops image ⟨pc, cells, printed⟩ ⟨t, cells, printed⟩ := by
  refine reaches_of_execute here ?_
  change State.jump _ _ _ _ = _
  rw [State.jump, toNat?_eq_some leads]
  rfl

/-- A test jumps if the value is the expected one. -/
theorem State.test_eq_jump (taken passed : Cells V)
    (leads : ((s.pc + i.size : Nat) : Int) + d.toInt = t) :
    s.test i d true taken passed = some { s with pc := t, cells := taken } := by
  rw [State.test, if_pos rfl, State.jump, toNat?_eq_some leads]
  rfl

/-- The tested value is dropped in any case. -/
theorem State.execute_gotoDrop (constants : ConstantPool) (value : Bool) (d : Int16) (v : V) :
    State.execute ops constants (.gotoDrop value d) ⟨pc, cells.push (v :: values), printed⟩ =
      State.test ⟨pc, cells.push (v :: values), printed⟩ (.gotoDrop value d) d
        (ops.isTrue v == value) (cells.push values) (cells.push values) := by
  cases value with
  | true => rw [beq_true]; rfl
  | false => rw [beq_false]; rfl

/-- The tested value is kept if the jump is taken. -/
theorem State.execute_gotoOrDrop (constants : ConstantPool) (value : Bool) (d : Int16) (v : V) :
    State.execute ops constants (.gotoOrDrop value d) ⟨pc, cells.push (v :: values), printed⟩ =
      State.test ⟨pc, cells.push (v :: values), printed⟩ (.gotoOrDrop value d) d
        (ops.isTrue v == value) (cells.push (v :: values)) (cells.push values) := by
  cases value with
  | true => rw [beq_true]; rfl
  | false => rw [beq_false]; rfl

/-- A test that jumps removes the value. -/
theorem reaches_gotoDrop_taken (here : fetch image.code pc = some (.gotoDrop value d))
    (leads : ((pc + (Instruction.gotoDrop value d).size : Nat) : Int) + d.toInt = t)
    (tested : ops.isTrue v = value) :
    Reaches ops image ⟨pc, cells.push (v :: values), printed⟩
      ⟨t, cells.push values, printed⟩ := by
  refine reaches_of_execute here ?_
  rw [State.execute_gotoDrop, beq_iff_eq.mpr tested]
  exact State.test_eq_jump _ _ leads

/-- A test that does not jump removes the value too. -/
theorem reaches_gotoDrop_passed (here : fetch image.code pc = some (.gotoDrop value d))
    (tested : ops.isTrue v ≠ value) :
    Reaches ops image ⟨pc, cells.push (v :: values), printed⟩
      ⟨pc + (Instruction.gotoDrop value d).size, cells.push values, printed⟩ := by
  refine reaches_of_execute here ?_
  rw [State.execute_gotoDrop, beq_eq_false_iff_ne.mpr tested]
  rfl

/-- A test in a chain keeps the value if it jumps. -/
theorem reaches_gotoOrDrop_taken (here : fetch image.code pc = some (.gotoOrDrop value d))
    (leads : ((pc + (Instruction.gotoOrDrop value d).size : Nat) : Int) + d.toInt = t)
    (tested : ops.isTrue v = value) :
    Reaches ops image ⟨pc, cells.push (v :: values), printed⟩
      ⟨t, cells.push (v :: values), printed⟩ := by
  refine reaches_of_execute here ?_
  rw [State.execute_gotoOrDrop, beq_iff_eq.mpr tested]
  exact State.test_eq_jump _ _ leads

/-- A test in a chain removes the value if it does not jump. -/
theorem reaches_gotoOrDrop_passed (here : fetch image.code pc = some (.gotoOrDrop value d))
    (tested : ops.isTrue v ≠ value) :
    Reaches ops image ⟨pc, cells.push (v :: values), printed⟩
      ⟨pc + (Instruction.gotoOrDrop value d).size, cells.push values, printed⟩ := by
  refine reaches_of_execute here ?_
  rw [State.execute_gotoOrDrop, beq_eq_false_iff_ne.mpr tested]
  rfl

/-- Loading pushes what the slot holds. -/
theorem reaches_load (here : fetch image.code pc = some (Emit.load slot))
    (found : cells.load slot = some v) :
    Reaches ops image ⟨pc, cells.push values, printed⟩
      ⟨pc + (Emit.load slot).size, cells.push (v :: values), printed⟩ := by
  refine reaches_of_execute here ?_
  have below := Cells.load_push found values
  obtain ⟨kind, index⟩ := slot
  cases kind <;> exact congrArg (Option.map _) below

/-- Storing keeps the value on the stack. -/
theorem reaches_store (here : fetch image.code pc = some (Emit.store slot))
    (stored : cells.store slot v = some cells') :
    Reaches ops image ⟨pc, cells.push (v :: values), printed⟩
      ⟨pc + (Emit.store slot).size, cells'.push (v :: values), printed⟩ := by
  refine reaches_of_execute here ?_
  have below := Cells.store_push stored (v :: values)
  obtain ⟨kind, index⟩ := slot
  cases kind <;> exact congrArg (Option.map _) below

/-- A constant is pushed. -/
theorem reaches_constant {c : Constant} (here : fetch image.code pc = some (.constant n))
    (known : image.constants.get? n.toNat = some c) :
    Reaches ops image ⟨pc, cells.push values, printed⟩
      ⟨pc + (Instruction.constant n).size, cells.push (ops.constant c :: values), printed⟩ :=
  reaches_of_execute here (congrArg (Option.map _) known)

theorem reaches_unary {shape : op.shape = .none} {f : V → V}
    (here : fetch image.code pc = some (.simple op shape)) (does : ops.unary? op = some f) :
    Reaches ops image ⟨pc, cells.push (v :: values), printed⟩
      ⟨pc + (Instruction.simple op shape).size, cells.push (f v :: values), printed⟩ := by
  refine reaches_of_execute here ?_
  cases op <;> cases does <;> rfl

/-- An operation replaces its operands by its value. -/
theorem reaches_binary {shape : op.shape = .none} {f : V → V → V} {a b : V}
    (here : fetch image.code pc = some (.simple op shape)) (does : ops.binary? op = some f) :
    Reaches ops image ⟨pc, cells.push (b :: a :: values), printed⟩
      ⟨pc + (Instruction.simple op shape).size, cells.push (f a b :: values), printed⟩ := by
  refine reaches_of_execute here ?_
  cases op <;> cases does <;> rfl

/-- A concatenation joins as many operands as it says. -/
theorem reaches_concat {operands : List V} (here : fetch image.code pc = some (.concat n))
    (count : n.toNat = operands.length) (joined : ops.join operands = some v) :
    Reaches ops image ⟨pc, cells.push (operands ++ values), printed⟩
      ⟨pc + (Instruction.concat n).size, cells.push (v :: values), printed⟩ := by
  refine reaches_of_execute here ?_
  simp [State.execute, Instruction.concat, Cells.push, count, joined, State.pass]

/-- Printing drops the printed value. -/
theorem reaches_print (here : fetch image.code pc = some .print) :
    Reaches ops image ⟨pc, cells.push (v :: values), printed⟩
      ⟨pc + Instruction.print.size, cells.push values, printed ++ [v]⟩ :=
  reaches_of_execute here rfl

theorem reaches_pop (here : fetch image.code pc = some .pop) :
    Reaches ops image ⟨pc, cells.push (v :: values), printed⟩
      ⟨pc + Instruction.pop.size, cells.push values, printed⟩ :=
  reaches_of_execute here rfl

end Steps

/-! ### Reading encoded code -/

variable {code : List Instruction} {l : Located}

/-- An instruction is read back where it stands. -/
theorem fetch_append_encodeAll (encodable : ∀ i ∈ code, i.Encodable) (before after : List UInt8)
    (mem : l ∈ locate before.length code) :
    fetch (before ++ encodeAll code ++ after) l.offset = some l.instruction := by
  induction code generalizing before with
  | nil => cases mem
  | cons i rest ih =>
    have first := encodable i List.mem_cons_self
    have others : ∀ j ∈ rest, j.Encodable := fun j mem => encodable j (List.mem_cons_of_mem _ mem)
    have split : before ++ encodeAll (i :: rest) ++ after =
        before ++ i.encode ++ encodeAll rest ++ after := by
      simp [encodeAll]
    rcases List.mem_cons.mp mem with same | later
    · cases same
      rw [split, List.append_assoc, List.append_assoc, fetch, List.drop_left,
        Reader.instruction_encode first]
    · rw [split]
      refine ih others (before ++ i.encode) ?_
      rw [List.length_append, i.length_encode]
      exact later

/-- Instructions that were encoded are read back where they stand. -/
theorem fetch_encodeAll (encodable : ∀ i ∈ code, i.Encodable) (mem : l ∈ locate 0 code) :
    fetch (encodeAll code) l.offset = some l.instruction := by
  have read := fetch_append_encodeAll encodable [] [] mem
  rwa [List.nil_append, List.append_nil] at read

end Bindery.Machine
