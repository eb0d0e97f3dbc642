import Bindery.Machine.Error
import Bindery.Storage.Block

/-!
Where the variables of a running function are kept.

A frame belongs to one function: its locals by block, and the variables it takes
over from the functions around it. The outermost frame belongs to the program;
while no block is open there, declarations are global. A variable of an outer
function is taken over by every function in between, so that each of them can
hand it on.
-/

namespace Bindery.Machine.Capture

/-- What captures are ordered by. -/
def key (c : Capture) : Nat := 2 * c.index.toNat + c.isLocal.toNat

theorem key_inj {a b : Capture} (h : a.key = b.key) : a = b := by
  obtain ⟨x, i⟩ := a
  obtain ⟨y, j⟩ := b
  simp only [key] at h
  have hx := x.toNat_le
  have hy := y.toNat_le
  have flags : x.toNat = y.toNat := by omega
  have indices : i.toNat = j.toNat := by omega
  rw [UInt16.toNat_inj.mp indices]
  cases x <;> cases y <;> simp_all

instance : Ord Capture := ⟨compareOn key⟩

instance : Std.TransOrd Capture := inferInstanceAs (Std.TransCmp (compareOn key))

instance : Std.LawfulEqOrd Capture where
  compare_self := Std.ReflOrd.compare_self
  eq_of_compare h := key_inj (Std.LawfulEqOrd.eq_of_compare h)

end Bindery.Machine.Capture

namespace Bindery.Storage

open Machine (Capture EmitError SlotKind)

/-- The number of slots of one kind that a frame can address. -/
def slotLimit : Nat := 65536

/-- Where a variable lives, seen from the current function. -/
structure Slot where
  kind : SlotKind
  index : UInt16
deriving DecidableEq, Repr, Inhabited

/-- The blocks of a function, the innermost first, and the variables it takes over. -/
structure Frame where
  blocks : List Block
  free : Numbering Capture

namespace Frame

def empty : Frame := ⟨[], ∅⟩

instance : Inhabited Frame := ⟨empty⟩

def size (f : Frame) : Nat := total Block.size f.blocks

/-- The local that a symbol names, in the innermost block that declares it. -/
def get? (f : Frame) (s : SymbolId) : Option Local := f.blocks.findSome? (·.get? s)

/-- Marks the innermost local of a symbol as used by an inner function. -/
def captureIn (s : SymbolId) : List Block → List Block
  | [] => []
  | b :: outer =>
    match b.get? s with
    | some l => b.put s { l with captured := true } :: outer
    | none => b :: captureIn s outer

def capture (f : Frame) (s : SymbolId) : Frame := { f with blocks := captureIn s f.blocks }

/-- Gives a symbol the next slot, in the innermost block. -/
def put (f : Frame) (s : SymbolId) : Except EmitError Frame :=
  if slotLimit ≤ f.size then .error (.slotOverflow .localSlot)
  else
    let l : Local := ⟨.ofNat f.size, false⟩
    match f.blocks with
    | [] => .ok { f with blocks := [Block.empty.put s l] }
    | b :: outer => .ok { f with blocks := b.put s l :: outer }

/-- The index of a variable that is taken over, which is added if it is new. -/
def takeOver (f : Frame) (c : Capture) : Except EmitError (UInt16 × Frame) :=
  if (f.free.number? c).isNone ∧ slotLimit ≤ f.free.size then .error (.slotOverflow .free)
  else
    let (index, free) := f.free.intern c
    .ok (.ofNat index, { f with free })

/-- The locals in slot `base` and above, the highest slot first. -/
def localsFrom (f : Frame) (base : Nat) : List Local :=
  Local.highestFirst
    ((f.blocks.reverse.flatMap Block.toList).filter fun l => base ≤ l.index.toNat)

end Frame

/-- The frame of the current function and those of the functions around it, the
innermost first. -/
structure FrameStack where
  current : Frame
  enclosing : List Frame

namespace FrameStack

def empty : FrameStack := ⟨.empty, []⟩

instance : Inhabited FrameStack := ⟨empty⟩

/-- Whether a declaration here is global. -/
def isGlobal (fs : FrameStack) : Bool := fs.enclosing.isEmpty && fs.current.blocks.isEmpty

def pushFrame (fs : FrameStack) : FrameStack := ⟨.empty, fs.current :: fs.enclosing⟩

/-- Leaves a function: what it takes over, and the frames around it. -/
def popFrame (fs : FrameStack) : List Capture × FrameStack :=
  let captures := fs.current.free.toList
  match fs.enclosing with
  | [] => (captures, empty)
  | f :: outer => (captures, ⟨f, outer⟩)

def pushBlock (fs : FrameStack) : FrameStack :=
  { fs with current := { fs.current with blocks := .empty :: fs.current.blocks } }

/-- Leaves a block: its locals, the highest slot first, and the frames after it. -/
def popBlock (fs : FrameStack) : List Local × FrameStack :=
  match fs.current.blocks with
  | [] => ([], fs)
  | b :: outer =>
    (Local.highestFirst b.toList, { fs with current := { fs.current with blocks := outer } })

/-- Gives a symbol the next slot of the current function. -/
def put (fs : FrameStack) (s : SymbolId) : Except EmitError FrameStack :=
  (fs.current.put s).map fun f => { fs with current := f }

/-- Takes a symbol over into `f` from the nearest of the frames around it that
declares it, through all frames in between. -/
def takeOverFrom (s : SymbolId) (f : Frame) :
    List Frame → Except EmitError (Option (UInt16 × FrameStack))
  | [] => .ok none
  | parent :: outer =>
    match parent.get? s with
    | some l =>
      (f.takeOver ⟨true, l.index⟩).map fun (index, f) =>
        some (index, ⟨f, parent.capture s :: outer⟩)
    | none => do
      match ← takeOverFrom s parent outer with
      | none => .ok none
      | some (held, around) =>
        (f.takeOver ⟨false, held⟩).map fun (index, f) =>
          some (index, ⟨f, around.current :: around.enclosing⟩)

/-- Finds a symbol among the locals of the current function, or takes it over. -/
def resolve (fs : FrameStack) (s : SymbolId) : Except EmitError (Option Slot × FrameStack) :=
  match fs.current.get? s with
  | some l => .ok (some ⟨.localSlot, l.index⟩, fs)
  | none =>
    (takeOverFrom s fs.current fs.enclosing).map fun
      | none => (none, fs)
      | some (index, fs) => (some ⟨.free, index⟩, fs)

end FrameStack

/-- The global variables by slot. -/
structure Globals where
  slots : Numbering SymbolId
deriving DecidableEq

namespace Globals

def empty : Globals := ⟨∅⟩

instance : Inhabited Globals := ⟨empty⟩

def size (g : Globals) : Nat := g.slots.size

def get? (g : Globals) (s : SymbolId) : Option UInt16 := (g.slots.number? s).map .ofNat

/-- The slot of a symbol, which gets one if it has none. One slot less than can be
addressed is given out, so that the number of slots fits 16 bits. -/
def put (g : Globals) (s : SymbolId) : Except EmitError (UInt16 × Globals) :=
  if (g.slots.number? s).isNone ∧ slotLimit - 1 ≤ g.size then .error (.slotOverflow .global)
  else
    let (index, slots) := g.slots.intern s
    .ok (.ofNat index, ⟨slots⟩)

end Globals

end Bindery.Storage
