import Bindery.Machine.Pool

/-!
What code does to the operand stack.

An instruction takes values from the stack and gives others back; their numbers follow
from the opcode, except that a concatenation carries the number of its operands and a call
leaves the number of its arguments to the function. `StackSafe` says that code fits an
assignment of heights to its instructions: along every edge of the control flow the height
changes by what the instruction does, no instruction takes more than there is, and locals
lie on the stack when they are used. `Profile.stackSafe` derives this from a condition
on single instructions, by induction on how an instruction is reached.
-/

namespace Bindery.Machine

/-! ### Effects -/

namespace Opcode

/-- The number of values that an instruction takes, where `n` values are joined or are the
arguments of a call. -/
def takes (n : Nat) : Opcode → Nat
  | .goto | .pushFalse | .pushTrue | .getGlobal | .getFree | .getLocal | .constant | .halt => 0
  | .gotoFalseOrDrop | .gotoTrueOrDrop | .gotoDropFalse | .gotoDropTrue | .closeFree | .neg
  | .not | .setGlobal | .setFree | .setLocal | .ret | .print | .closure | .pop => 1
  | .add | .sub | .mul | .div | .greater | .equals | .less => 2
  | .call => n + 1
  | .concat => n

/-- The number of values that an instruction gives back. A test that jumps keeps the value
that it tested. -/
def gives (taken : Bool) : Opcode → Nat
  | .gotoFalseOrDrop | .gotoTrueOrDrop => taken.toNat
  | .goto | .gotoDropFalse | .gotoDropTrue | .closeFree | .ret | .print | .pop | .halt => 0
  | .pushFalse | .pushTrue | .add | .sub | .mul | .div | .neg | .getGlobal | .setGlobal
  | .getFree | .setFree | .getLocal | .setLocal | .call | .greater | .equals | .less | .not
  | .concat | .constant | .closure => 1

def runsOn : Opcode → Bool
  | .goto | .ret | .halt => false
  | _ => true

end Opcode

namespace Instruction

/-- The number of values an instruction is about: that of a concatenation is its operand, and
that of a call is its number of arguments. -/
def count (i : Instruction) (arguments : Nat) : Nat :=
  match i.operand with
  | .count n => n.toNat
  | _ => arguments

def takes (i : Instruction) (arguments : Nat) : Nat := i.opcode.takes (i.count arguments)

/-- By how much an instruction changes the height of the stack. A call takes the function
and its `n` arguments and gives the result, so its effect is `-n`; that of a concatenation
of `k` values is `1 - k`, and a store keeps the value that it takes. -/
def effect (i : Instruction) (arguments : Nat) (taken : Bool) : Int :=
  i.opcode.gives taken - i.takes arguments

def slot? (i : Instruction) : Option UInt16 :=
  match i.opcode, i.operand with
  | .getLocal, .index n | .setLocal, .index n => some n
  | _, _ => none

end Instruction

/-! ### Control flow -/

/-- Where control goes from an instruction, and whether by a jump. -/
def Located.successors (l : Located) : List (Bool × Int) :=
  l.target?.toList.map (fun t => (true, t)) ++
    if l.instruction.opcode.runsOn then [(false, (l.stop : Int))] else []

theorem Located.mem_successors {l : Located} {taken : Bool} {t : Int} :
    (taken, t) ∈ l.successors ↔
      (taken = true ∧ l.target? = some t) ∨
        (taken = false ∧ l.instruction.opcode.runsOn = true ∧ t = l.stop) := by
  unfold successors
  cases l.target? <;> cases l.instruction.opcode.runsOn <;> cases taken <;> simp [eq_comm]

/-- An instruction that is reached from one of the roots, each of which has an offset and
a height. -/
inductive Reachable (code : List Located) (roots : List (Nat × Nat)) : Located → Prop where
  | root {l h} : l ∈ code → (l.offset, h) ∈ roots → Reachable code roots l
  | step {l l' taken} : Reachable code roots l → l' ∈ code →
      (taken, (l'.offset : Int)) ∈ l.successors → Reachable code roots l'

theorem Reachable.mem {code : List Located} {roots : List (Nat × Nat)} {l : Located}
    (reached : Reachable code roots l) : l ∈ code := by
  cases reached with
  | root here => exact here
  | step _ here => exact here

/-- Heights of the stack at every instruction that is reached from one of the roots, with
the number of arguments of each call. -/
structure StackSafe (code : List Located) (roots : List (Nat × Nat))
    (arguments height : Nat → Nat) : Prop where
  /-- A root is an instruction, and has its height. -/
  entries : ∀ root ∈ roots, height root.1 = root.2 ∧ ∃ l ∈ code, l.offset = root.1
  /-- Every way on leads to an instruction, where the height has changed by the effect. -/
  edges : ∀ l, Reachable code roots l → ∀ taken t, (taken, t) ∈ l.successors →
    ∃ l' ∈ code, (l'.offset : Int) = t ∧
      (height l'.offset : Int) =
        height l.offset + l.instruction.effect (arguments l.offset) taken
  /-- No instruction takes more values than there are. -/
  operands : ∀ l, Reachable code roots l →
    l.instruction.takes (arguments l.offset) ≤ height l.offset
  locals : ∀ l, Reachable code roots l → ∀ n, l.instruction.slot? = some n →
    n.toNat < height l.offset
  returns : ∀ l, Reachable code roots l → l.instruction.opcode = .ret → 1 ≤ height l.offset
  halts : ∀ l, Reachable code roots l → l.instruction.opcode = .halt → height l.offset = 0

/-- Where the functions of a program start, and the numbers of their parameters. -/
def ConstantPool.functions (p : ConstantPool) : List (Nat × Nat) :=
  p.toList.filterMap fun
    | .function entry arity => some (entry.toNat, arity.toNat)
    | _ => none

def callOffsets (code : List Located) : List Nat :=
  (code.filter fun l => l.instruction.opcode == .call).map (·.offset)

/-! ### Profiles -/

/-- A height for some offsets, and the number of arguments for each call. -/
structure Profile where
  height : Nat → Option Nat
  arguments : Nat → Nat

namespace Profile

/-- What is required of an instruction at height `h`. -/
structure Admits (a : Profile) (l : Located) (h : Nat) : Prop where
  operands : l.instruction.takes (a.arguments l.offset) ≤ h
  locals : ∀ n, l.instruction.slot? = some n → n.toNat < h
  halts : l.instruction.opcode = .halt → h = 0
  edges : ∀ taken t, (taken, t) ∈ l.successors → ∃ t' h' : Nat, (t' : Int) = t ∧
    a.height t' = some h' ∧ (h' : Int) = h + l.instruction.effect (a.arguments l.offset) taken

variable {a : Profile} {code : List Located} {roots : List (Nat × Nat)}

/-- What is reached has a height. -/
theorem height_of_reachable (admits : ∀ l ∈ code, ∀ h, a.height l.offset = some h → a.Admits l h)
    (entries : ∀ root ∈ roots, a.height root.1 = some root.2) {l : Located}
    (reached : Reachable code roots l) : ∃ h, a.height l.offset = some h := by
  induction reached with
  | root _ entry => exact ⟨_, entries _ entry⟩
  | step before _ edge ih =>
    obtain ⟨h, known⟩ := ih
    obtain ⟨t, h', same, next, _⟩ := (admits _ before.mem h known).edges _ _ edge
    obtain rfl := Int.ofNat.inj same
    exact ⟨h', next⟩

/-- Heights that are right at every instruction make code safe. -/
theorem stackSafe (admits : ∀ l ∈ code, ∀ h, a.height l.offset = some h → a.Admits l h)
    (entries : ∀ root ∈ roots, a.height root.1 = some root.2)
    (within : ∀ o h, a.height o = some h → ∃ l ∈ code, l.offset = o) :
    StackSafe code roots a.arguments fun o => (a.height o).getD 0 := by
  have reach : ∀ l, Reachable code roots l →
      ∃ h, a.height l.offset = some h ∧ (a.height l.offset).getD 0 = h ∧ a.Admits l h := by
    intro l reached
    obtain ⟨h, known⟩ := height_of_reachable admits entries reached
    exact ⟨h, known, by rw [known]; rfl, admits l reached.mem h known⟩
  constructor
  case entries =>
    intro root mem
    have known := entries root mem
    exact ⟨by rw [known]; rfl, within _ _ known⟩
  case edges =>
    intro l reached taken t edge
    obtain ⟨h, _, height, admitted⟩ := reach l reached
    obtain ⟨t', h', rfl, next, changed⟩ := admitted.edges taken t edge
    obtain ⟨l', mem, rfl⟩ := within _ _ next
    exact ⟨l', mem, rfl, by rw [next, height]; exact changed⟩
  case operands =>
    intro l reached
    obtain ⟨h, _, height, admitted⟩ := reach l reached
    rw [height]
    exact admitted.operands
  case locals =>
    intro l reached n used
    obtain ⟨h, _, height, admitted⟩ := reach l reached
    rw [height]
    exact admitted.locals n used
  case returns =>
    intro l reached leaves
    obtain ⟨h, _, height, admitted⟩ := reach l reached
    have enough := admitted.operands
    rw [Instruction.takes, leaves] at enough
    rw [height]
    exact enough
  case halts =>
    intro l reached stops
    obtain ⟨h, _, height, admitted⟩ := reach l reached
    rw [height]
    exact admitted.halts stops

end Profile

end Bindery.Machine
