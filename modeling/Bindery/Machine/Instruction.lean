import Bindery.Machine.Opcode
import Bindery.Machine.Word
import Bindery.Total

/-!
Instructions, and instructions at their place in the code.

`Instruction.encode` gives the bytes of an instruction and `Instruction.size`
their number. A jump counts its distance from the end of the instruction, so its
target is known once the instruction has a place.
-/

namespace Bindery.Machine

/-- What a closure takes over from the function that makes it: one of its locals,
or one of the variables it has taken over itself. -/
structure Capture where
  isLocal : Bool
  index : UInt16
deriving DecidableEq, Repr, Inhabited

inductive Operand where
  | none
  | jump (distance : Int16)
  | index (index : UInt16)
  | count (count : UInt16)
  | captures (captures : List Capture)
deriving DecidableEq, Repr, Inhabited

def Operand.shape : Operand → Shape
  | .none => .none
  | .jump _ => .jump
  | .index _ => .index
  | .count _ => .count
  | .captures _ => .captures

/-- An opcode with an operand of its layout. -/
structure Instruction where
  opcode : Opcode
  operand : Operand
  shape_eq : operand.shape = opcode.shape := by rfl
deriving DecidableEq, Repr

namespace Capture

def encode (c : Capture) : List UInt8 :=
  (if c.isLocal then 1 else 0) :: bytes16 c.index

@[simp] theorem length_encode (c : Capture) : c.encode.length = 3 := by
  simp [encode, bytes16]

/-- A capture in listings: `local 2`, `free 0`. -/
def text (c : Capture) : String :=
  (if c.isLocal then "local " else "free ") ++ toString c.index.toNat

end Capture

namespace Operand

@[simp] theorem shape_count (n : UInt16) : (count n).shape = .count := rfl

@[simp] theorem shape_captures (cs : List Capture) : (captures cs).shape = .captures := rfl

def encode : Operand → List UInt8
  | .none => []
  | .jump d => bytes16 d.toUInt16
  | .index i => bytes16 i
  | .count n => bytes16 n
  | .captures cs => bytes16 (.ofNat cs.length) ++ cs.flatMap Capture.encode

/-- The number of bytes of an operand. -/
def size : Operand → Nat
  | .none => 0
  | .captures cs => 2 + 3 * cs.length
  | _ => 2

theorem length_encode (operand : Operand) : operand.encode.length = operand.size := by
  cases operand with
  | captures cs =>
    simp only [encode, size, List.length_append, bytes16, length_bytesOf]
    induction cs with
    | nil => rfl
    | cons c rest ih =>
      simp only [List.flatMap_cons, List.length_append, Capture.length_encode,
        List.length_cons]
      omega
  | _ => simp [encode, size, bytes16]

end Operand

namespace Instruction

def encode (i : Instruction) : List UInt8 := i.opcode.byte :: i.operand.encode

def size (i : Instruction) : Nat := 1 + i.operand.size

theorem length_encode (i : Instruction) : i.encode.length = i.size := by
  simp [encode, size, Operand.length_encode, Nat.add_comm]

theorem size_pos (i : Instruction) : 0 < i.size := by
  simp only [size]
  omega

def simple (op : Opcode) (h : op.shape = .none := by rfl) : Instruction :=
  ⟨op, .none, h.symm⟩

def jump (op : Opcode) (distance : Int16) (h : op.shape = .jump := by rfl) : Instruction :=
  ⟨op, .jump distance, h.symm⟩

def indexed (op : Opcode) (index : UInt16) (h : op.shape = .index := by rfl) : Instruction :=
  ⟨op, .index index, h.symm⟩

def closeFree : Instruction := .simple .closeFree
def pushFalse : Instruction := .simple .pushFalse
def pushTrue : Instruction := .simple .pushTrue
def add : Instruction := .simple .add
def sub : Instruction := .simple .sub
def mul : Instruction := .simple .mul
def div : Instruction := .simple .div
def neg : Instruction := .simple .neg
def ret : Instruction := .simple .ret
def call : Instruction := .simple .call
def greater : Instruction := .simple .greater
def equals : Instruction := .simple .equals
def less : Instruction := .simple .less
def not : Instruction := .simple .not
def print : Instruction := .simple .print
def pop : Instruction := .simple .pop
def halt : Instruction := .simple .halt

def goto (distance : Int16) : Instruction := .jump .goto distance

/-- Pops, and jumps if it was `value`. -/
def gotoDrop (value : Bool) (distance : Int16) : Instruction :=
  match value with
  | true => .jump .gotoDropTrue distance
  | false => .jump .gotoDropFalse distance

/-- Jumps if the top is `value`, otherwise drops it. -/
def gotoOrDrop (value : Bool) (distance : Int16) : Instruction :=
  match value with
  | true => .jump .gotoTrueOrDrop distance
  | false => .jump .gotoFalseOrDrop distance

def getGlobal (index : UInt16) : Instruction := .indexed .getGlobal index
def setGlobal (index : UInt16) : Instruction := .indexed .setGlobal index
def getFree (index : UInt16) : Instruction := .indexed .getFree index
def setFree (index : UInt16) : Instruction := .indexed .setFree index
def getLocal (index : UInt16) : Instruction := .indexed .getLocal index
def setLocal (index : UInt16) : Instruction := .indexed .setLocal index
def constant (index : UInt16) : Instruction := .indexed .constant index

def concat (count : UInt16) : Instruction :=
  ⟨.concat, .count count, Operand.shape_count count⟩

def closure (captures : List Capture) : Instruction :=
  ⟨.closure, .captures captures, Operand.shape_captures captures⟩

end Instruction

/-- An instruction and the offset of its first byte. -/
structure Located where
  offset : Nat
  instruction : Instruction
deriving DecidableEq, Repr

namespace Located

/-- The offset just behind the instruction. -/
def stop (l : Located) : Nat := l.offset + l.instruction.size

/-- The offset a jump leads to. -/
def target? (l : Located) : Option Int :=
  match l.instruction.operand with
  | .jump distance => some (l.stop + distance.toInt)
  | _ => none

/-- The slot or constant that the instruction names. -/
def index? (l : Located) : Option UInt16 :=
  match l.instruction.operand with
  | .index index => some index
  | _ => none

/-- An offset with at least four characters, the sign included. -/
def padded (n : Int) : String :=
  let digits := toString n.natAbs
  let sign := if n < 0 then "-" else ""
  sign ++ "".pushn '0' (4 - sign.length - digits.length) ++ digits

/-- A line of a listing: `0006  GOTO -> 0013`. -/
def text (l : Located) : String :=
  let operand := match l.instruction.operand with
    | .none => ""
    | .jump distance => " -> " ++ padded (l.stop + distance.toInt)
    | .index index => " " ++ toString index.toNat
    | .count count => " " ++ toString count.toNat
    | .captures captures =>
      " " ++ toString captures.length ++ " [" ++
        String.intercalate ", " (captures.map Capture.text) ++ "]"
  padded l.offset ++ "  " ++ l.instruction.opcode.name ++ operand

end Located

def encodeAll (code : List Instruction) : List UInt8 :=
  code.flatMap Instruction.encode

def sizeOfAll (code : List Instruction) : Nat := total Instruction.size code

theorem length_encodeAll (code : List Instruction) :
    (encodeAll code).length = sizeOfAll code := by
  induction code with
  | nil => rfl
  | cons i rest ih =>
    simp only [encodeAll, sizeOfAll, List.flatMap_cons, List.length_append, total_cons,
      Instruction.length_encode] at ih ⊢
    rw [ih]

end Bindery.Machine
