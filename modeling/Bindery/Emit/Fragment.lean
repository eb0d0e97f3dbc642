import Bindery.Machine.Error
import Bindery.Machine.Instruction

/-!
Code under construction.

Jumps are relative, so a finished piece of code does not depend on its place, with
one exception: `break` and `continue` leave their loop, whose extent is known only
when its body is finished. A fragment is a sequence of instructions and of such
open exits. Closing a loop gives every exit of its body its distance.
-/

namespace Bindery.Emit

open Machine (EmitError Instruction LoopExit toDistance)

/-- Instructions all of whose jumps are settled. -/
abbrev Code := List Instruction

/-- The number of bytes of a jump. -/
def jumpSize : Nat := 3

/-- An instruction, or a jump out of the enclosing loop's body. -/
inductive Item where
  | instruction (i : Instruction)
  | exit (e : LoopExit)
deriving DecidableEq, Repr

def Item.size : Item → Nat
  | .instruction i => i.size
  | .exit _ => jumpSize

/-- The instruction of an item. An open exit has no distance yet and stands with the
largest one. -/
def Item.toInstruction : Item → Instruction
  | .instruction i => i
  | .exit _ => .goto 32767

/-- Code whose jumps out of the enclosing loop are open. -/
abbrev Fragment := List Item

namespace Code

def size (code : Code) : Nat := Machine.sizeOfAll code

def toFragment (code : Code) : Fragment := code.map .instruction

@[simp] theorem size_nil : size [] = 0 := rfl

@[simp] theorem size_cons (i : Instruction) (rest : Code) :
    size (i :: rest) = i.size + size rest := by
  simp [size, Machine.sizeOfAll]

@[simp] theorem size_append (a b : Code) : size (a ++ b) = size a + size b := by
  simp [size, Machine.sizeOfAll]

end Code

namespace Fragment

def size (fragment : Fragment) : Nat := total Item.size fragment

def toCode (fragment : Fragment) : Code := fragment.map Item.toInstruction

@[simp] theorem size_nil : size [] = 0 := rfl

@[simp] theorem size_cons (item : Item) (rest : Fragment) :
    size (item :: rest) = item.size + size rest := by
  simp [size]

@[simp] theorem size_append (a b : Fragment) : size (a ++ b) = size a + size b := by
  simp [size]

@[simp] theorem size_reverse (a : Fragment) : size a.reverse = size a := by
  simp [size]

@[simp] theorem size_toFragment (code : Code) : size code.toFragment = code.size := by
  simp [size, Code.size, Code.toFragment, Machine.sizeOfAll, Item.size]

@[simp] theorem toCode_toFragment (code : Code) : toCode code.toFragment = code := by
  simp [toCode, Code.toFragment, Function.comp_def, Item.toInstruction]

/-- Settles the exits of one kind in a fragment that starts `offset` bytes into the
loop, with `target` counted from the start of the loop too. -/
def settleFrom (exit : LoopExit) (target offset : Nat) (settled : Fragment) :
    Fragment → Except EmitError Fragment
  | [] => .ok settled.reverse
  | .instruction i :: rest =>
    settleFrom exit target (offset + i.size) (.instruction i :: settled) rest
  | .exit e :: rest =>
    if e = exit then do
      let distance ← toDistance ((target : Int) - (offset + jumpSize : Nat))
      settleFrom exit target (offset + jumpSize) (.instruction (.goto distance) :: settled)
        rest
    else
      settleFrom exit target (offset + jumpSize) (.exit e :: settled) rest

/-- Settles all exits of a loop: `continue` leads to `resume`, counted from the start
of the loop, and `break` to the end. -/
def closeLoop (loop : Fragment) (resume : Nat) : Except EmitError Fragment := do
  let resumed ← settleFrom .continues resume 0 [] loop
  settleFrom .breaks (size loop) 0 [] resumed

/-- The loop that tests its condition first. -/
def whileLoop (condition : Code) (body : Fragment) : Except EmitError Fragment := do
  let leave := size body + jumpSize
  let back ← toDistance (-(condition.size + jumpSize + leave : Nat))
  let skip ← toDistance leave
  closeLoop (condition.toFragment ++ .instruction (.gotoDrop false skip) ::
    (body ++ [.instruction (.goto back)])) 0

/-- The loop that tests its condition last. -/
def doWhile (body : Fragment) (condition : Code) : Except EmitError Fragment := do
  let resume := size body
  let back ← toDistance (-(resume + condition.size + jumpSize : Nat))
  closeLoop (body ++ condition.toFragment ++ [.instruction (.gotoDrop true back)]) resume

end Fragment

end Bindery.Emit
