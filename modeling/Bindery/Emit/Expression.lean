import Bindery.Bound
import Bindery.Emit.Emission

/-!
Code of expressions.

The code of an expression pushes one value. Operands of `&&`, of `||` and of a
concatenation are written as one chain: `a && b && c` has one end that every test
leads to, and a concatenation is one instruction for all its operands, pushed last
to first. `Expression.operands` is the code of the operands of a chain; an
expression that does not belong to the chain is its own only operand.
-/

namespace Bindery.Bound

open Emit (Code jumpSize)
open Machine (EmitError toDistance toWord16)

/-- How an operation is written. -/
inductive Lowering where
  | apply (code : Code)
  /-- The chain ends at the first operand that is `value`. -/
  | test (value : Bool)
  | concat
deriving DecidableEq

end Bindery.Bound

namespace Bindery

open Emit (Code jumpSize)
open Machine (EmitError toDistance toWord16)

def BinaryOperation.lowering : BinaryOperation → Bound.Lowering
  | .addition => .apply [.add]
  | .subtraction => .apply [.sub]
  | .multiplication => .apply [.mul]
  | .division => .apply [.div]
  | .concat => .concat
  | .equals => .apply [.equals]
  | .notEquals => .apply [.equals, .not]
  | .greaterThan => .apply [.greater]
  | .greaterThanEqual => .apply [.less, .not]
  | .lessThan => .apply [.less]
  | .lessThanEqual => .apply [.greater, .not]
  | .logicalAnd => .test false
  | .logicalOr => .test true

def UnaryOperation.code : UnaryOperation → Code
  | .identity => []
  | .negation => [.neg]
  | .logicalNegation => [.not]

namespace Emit

/-- The size of a chain of tests: its operands, and a jump between any two. -/
def testsSize (operands : List Code) : Nat :=
  total (fun code => Code.size code + jumpSize) operands - jumpSize

/-- Joins operands by tests that lead to the end. `size` is the size of the result. -/
def joinTests (value : Bool) (size : Nat) : List Code → Except EmitError Code
  | [] => .ok []
  | [last] => .ok last
  | operand :: rest => do
    let remaining := size - (operand.size + jumpSize)
    let distance ← toDistance remaining
    let code ← joinTests value remaining rest
    return operand ++ .gotoOrDrop value distance :: code

/-- The code that pushes a literal. A character is its code point. -/
def literal : Literal → Emit Code
  | .boolean true => return [.pushTrue]
  | .boolean false => return [.pushFalse]
  | .int value => return [← constant (.int value)]
  | .long value => return [← constant (.long value)]
  | .float bits => return [← constant (.float bits)]
  | .double bits => return [← constant (.double bits)]
  | .string value => return [← constant (.string value)]
  | .char value => return [← constant (.int (.ofNat value.toNat))]

end Emit

namespace Bound

mutual

/-- The code of the operands of a chain, in the order in which they run. -/
def Expression.operands (symbols : SymbolTable) (chain : Option BinaryOperation) :
    Expression → Emit (List Code)
  | .literal value _ => return [← Emit.literal value]
  | .reference s _ _ => return [[Emit.load (← Emit.resolve symbols s)]]
  | .assignment s value _ _ => do
    let value ← value.operands symbols none
    return [value.flatten ++ [Emit.store (← Emit.resolve symbols s)]]
  | .binary op left right _ _ =>
    match op.lowering with
    | .apply code => do
      let left ← left.operands symbols none
      let right ← right.operands symbols none
      return [left.flatten ++ (right.flatten ++ code)]
    | .test value => do
      let left ← left.operands symbols (some op)
      let right ← right.operands symbols (some op)
      let operands := left ++ right
      if chain = some op then return operands
      else return [← Emit.joinTests value (Emit.testsSize operands) operands]
    | .concat => do
      let right ← right.operands symbols (some op)
      let left ← left.operands symbols (some op)
      let operands := right ++ left
      if chain = some op then return operands
      else
        let count ← toWord16 .operandCount operands.length
        return [operands.flatten ++ [.concat count]]
  | .unary op operand _ _ => do
    let operand ← operand.operands symbols none
    return [operand.flatten ++ op.code]
  | .parenthesized inner _ => do
    let inner ← inner.operands symbols none
    return [inner.flatten]
  | .call target arguments _ _ => do
    let arguments ← argumentCode symbols arguments
    let target ← target.operands symbols none
    return [arguments ++ (target.flatten ++ [.call])]
  | .ternary condition yes no _ _ => do
    let condition ← condition.operands symbols none
    let yes := (← yes.operands symbols none).flatten
    let skip ← toDistance (Code.size yes + jumpSize : Nat)
    let no := (← no.operands symbols none).flatten
    let leave ← toDistance (Code.size no)
    return [condition.flatten ++ .gotoDrop false skip ::
      (yes ++ .goto leave :: no)]
  | .error span => throw (.errorNode span)

/-- The code that pushes arguments in order. -/
def argumentCode (symbols : SymbolTable) : List Expression → Emit Code
  | [] => return []
  | e :: rest => do
    let code ← e.operands symbols none
    return code.flatten ++ (← argumentCode symbols rest)

end

def Expression.emit (symbols : SymbolTable) (e : Expression) : Emit Code := do
  let code ← e.operands symbols none
  return code.flatten

end Bound

end Bindery
