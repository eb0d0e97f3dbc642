/-!
The opcodes of the stack machine.

An instruction is one opcode byte and an operand, whose layout the opcode
determines. The byte of an opcode is its position in `Opcode.all`.
-/

namespace Bindery.Machine

inductive Opcode where
  /-- Jump if the top is false, otherwise drop it. -/
  | gotoFalseOrDrop
  /-- Jump if the top is true, otherwise drop it. -/
  | gotoTrueOrDrop
  /-- Pop, and jump if it was false. -/
  | gotoDropFalse
  /-- Pop, and jump if it was true. -/
  | gotoDropTrue
  | goto
  /-- Pop a captured local and move it into its cell. -/
  | closeFree
  | pushFalse | pushTrue
  | add | sub | mul | div | neg
  | getGlobal | setGlobal | getFree | setFree | getLocal | setLocal
  | ret
  /-- Call the function on top of the stack; it knows its number of arguments. -/
  | call
  | greater | equals | less | not
  /-- Join the topmost values into one string, the top first. -/
  | concat
  | print
  /-- Push an entry of the constant pool. -/
  | constant
  /-- Turn the function on top of the stack into a closure. -/
  | closure
  | pop
  | halt
deriving DecidableEq, Repr, Inhabited

/-- The layout of an operand. -/
inductive Shape where
  | none
  /-- A signed 16-bit distance from the end of the instruction. -/
  | jump
  /-- A 16-bit slot or constant index. -/
  | index
  /-- A 16-bit number of values. -/
  | count
  /-- A 16-bit number of captures, and so many captures. -/
  | captures
deriving DecidableEq, Repr, Inhabited

/-- The size of an operand in bytes, not counting the captures themselves. -/
def Shape.fixedSize : Shape → Nat
  | .none => 0
  | _ => 2

namespace Opcode

def all : List Opcode :=
  [.gotoFalseOrDrop, .gotoTrueOrDrop, .gotoDropFalse, .gotoDropTrue, .goto,
    .closeFree, .pushFalse, .pushTrue, .add, .sub, .mul, .div, .neg,
    .getGlobal, .setGlobal, .getFree, .setFree, .getLocal, .setLocal, .ret, .call,
    .greater, .equals, .less, .not, .concat, .print, .constant, .closure, .pop, .halt]

def byte : Opcode → UInt8
  | .gotoFalseOrDrop => 0
  | .gotoTrueOrDrop => 1
  | .gotoDropFalse => 2
  | .gotoDropTrue => 3
  | .goto => 4
  | .closeFree => 5
  | .pushFalse => 6
  | .pushTrue => 7
  | .add => 8
  | .sub => 9
  | .mul => 10
  | .div => 11
  | .neg => 12
  | .getGlobal => 13
  | .setGlobal => 14
  | .getFree => 15
  | .setFree => 16
  | .getLocal => 17
  | .setLocal => 18
  | .ret => 19
  | .call => 20
  | .greater => 21
  | .equals => 22
  | .less => 23
  | .not => 24
  | .concat => 25
  | .print => 26
  | .constant => 27
  | .closure => 28
  | .pop => 29
  | .halt => 30

/-- The opcode with this byte. -/
def ofByte? (byte : UInt8) : Option Opcode := all[byte.toNat]?

@[simp] theorem ofByte?_byte (op : Opcode) : ofByte? op.byte = some op := by
  cases op <;> rfl

def shape : Opcode → Shape
  | .gotoFalseOrDrop | .gotoTrueOrDrop | .gotoDropFalse | .gotoDropTrue | .goto => .jump
  | .getGlobal | .setGlobal | .getFree | .setFree | .getLocal | .setLocal | .constant => .index
  | .concat => .count
  | .closure => .captures
  | _ => .none

def isJump (op : Opcode) : Bool := op.shape == .jump

def name : Opcode → String
  | .gotoFalseOrDrop => "GOTO_FALSE_OR_DROP"
  | .gotoTrueOrDrop => "GOTO_TRUE_OR_DROP"
  | .gotoDropFalse => "GOTO_DROP_FALSE"
  | .gotoDropTrue => "GOTO_DROP_TRUE"
  | .goto => "GOTO"
  | .closeFree => "CLOSE_FREE"
  | .pushFalse => "PUSH_FALSE"
  | .pushTrue => "PUSH_TRUE"
  | .add => "ADD"
  | .sub => "SUB"
  | .mul => "MUL"
  | .div => "DIV"
  | .neg => "NEG"
  | .getGlobal => "GET_GLOBAL"
  | .setGlobal => "SET_GLOBAL"
  | .getFree => "GET_FREE"
  | .setFree => "SET_FREE"
  | .getLocal => "GET_LOCAL"
  | .setLocal => "SET_LOCAL"
  | .ret => "RETURN"
  | .call => "CALL"
  | .greater => "GREATER"
  | .equals => "EQUALS"
  | .less => "LESS"
  | .not => "NOT"
  | .concat => "CONCAT"
  | .print => "PRINT"
  | .constant => "CONSTANT"
  | .closure => "CLOSURE"
  | .pop => "POP"
  | .halt => "HALT"

end Opcode

end Bindery.Machine
