import Bindery.Emit.Fragment
import Bindery.Machine.Pool
import Bindery.Storage.Frame

/-!
What is known while a program is written as code: its constants so far, its global
variables, and the frames of the functions around the current place.
-/

namespace Bindery

open Machine (Constant ConstantPool EmitError Instruction Opcode Quantity SlotKind toWord16)
open Storage (FrameStack Globals Local Slot)

structure Emission where
  constants : ConstantPool
  globals : Globals
  frames : FrameStack
deriving Inhabited

def Emission.empty : Emission := ⟨.empty, .empty, .empty⟩

abbrev Emit := StateT Emission (Except EmitError)

namespace Emit

def load (slot : Slot) : Instruction :=
  match slot.kind with
  | .localSlot => .getLocal slot.index
  | .free => .getFree slot.index
  | .global => .getGlobal slot.index

/-- The instruction that writes a variable and keeps its value. -/
def store (slot : Slot) : Instruction :=
  match slot.kind with
  | .localSlot => .setLocal slot.index
  | .free => .setFree slot.index
  | .global => .setGlobal slot.index

/-- The instruction that pushes a constant, which joins the pool. -/
def constant (c : Constant) : Emit Instruction := fun e => do
  let (index, constants) ← e.constants.add c
  return (.constant (.ofNat index), { e with constants })

/-- Where a variable lives: a local first, then one to take over, then a global. -/
def resolve (symbols : SymbolTable) (s : SymbolId) : Emit Slot := fun e => do
  match ← e.frames.resolve s with
  | (some slot, frames) => return (slot, { e with frames })
  | (none, _) =>
    match e.globals.get? s with
    | some index => return (⟨.global, index⟩, e)
    | none =>
      let name := match symbols.get? s with
        | some symbol => symbol.name
        | none => "#" ++ toString s
      .error (.unresolvedSymbol name)

/-- Gives a local of the current function a slot. -/
def putLocal (s : SymbolId) : Emit Unit := fun e => do
  let frames ← e.frames.put s
  return ((), { e with frames })

/-- Gives a variable its slot. The result moves the value on top of the stack there; the
value of a local is in its slot already. -/
def declare (s : SymbolId) : Emit Code := fun e => do
  if e.frames.isGlobal then
    let (index, globals) ← e.globals.put s
    return ([.setGlobal index, .pop], { e with globals })
  else
    let frames ← e.frames.put s
    return ([], { e with frames })

def localCount : Emit Nat := fun e => return (e.frames.current.size, e)

/-- What removes the locals in slot `base` and above, on the way out of a loop. -/
def discardFrom (base : Nat) : Emit Code := fun e =>
  return ((e.frames.current.localsFrom base).map Local.discard, e)

def pushBlock : Emit Unit := fun e => return ((), { e with frames := e.frames.pushBlock })

/-- Leaves a block, with the code that removes its locals. -/
def popBlock : Emit Code := fun e =>
  let (locals, frames) := e.frames.popBlock
  return (locals.map Local.discard, { e with frames })

def pushFrame : Emit Unit := fun e => return ((), { e with frames := e.frames.pushFrame })

/-- Leaves a function, with what it takes over. -/
def popFrame : Emit (List Machine.Capture) := fun e =>
  let (captures, frames) := e.frames.popFrame
  return (captures, { e with frames })

/-- The instruction that hands over captured variables to a function; none is needed
where it takes none over. -/
def closure (captures : List Machine.Capture) : Except EmitError Code :=
  if captures.isEmpty then .ok []
  else do
    let _ ← toWord16 .captureCount captures.length
    return [.closure captures]

end Emit

end Bindery
