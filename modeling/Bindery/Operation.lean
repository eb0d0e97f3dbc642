import Bindery.Tree
import Bindery.Ty

/-!
What an operator means on its operand types.

The two operands of a binary operator have one type, with no conversions;
`BinaryOperation.resolve?` and `UnaryOperation.resolve?` give the operation and
the type of its result, or nothing where the operator is not defined.
-/

namespace Bindery

namespace Ty

def isNumeric : Ty → Bool
  | .int | .long | .float | .double => true
  | _ => false

/-- Types whose values can be compared for equality. -/
def isEquatable : Ty → Bool
  | .boolean | .string | .char => true
  | t => t.isNumeric

end Ty

inductive BinaryOperation where
  | addition | subtraction | multiplication | division
  | concat
  | equals | notEquals
  | greaterThan | greaterThanEqual | lessThan | lessThanEqual
  | logicalAnd | logicalOr
deriving DecidableEq, Repr, Inhabited

namespace BinaryOperation

def token : BinaryOperation → String
  | .addition | .concat => "+"
  | .subtraction => "-"
  | .multiplication => "*"
  | .division => "/"
  | .equals => "=="
  | .notEquals => "!="
  | .greaterThan => ">"
  | .greaterThanEqual => ">="
  | .lessThan => "<"
  | .lessThanEqual => "<="
  | .logicalAnd => "&&"
  | .logicalOr => "||"

/-- The operation on two operands of type `ty`, with its result type. -/
def on (operator : BinaryOperator) (ty : Ty) : Option (BinaryOperation × Ty) :=
  match operator with
  | .plus =>
    if ty = .string then some (.concat, .string)
    else if ty.isNumeric then some (.addition, ty) else none
  | .minus => if ty.isNumeric then some (.subtraction, ty) else none
  | .star => if ty.isNumeric then some (.multiplication, ty) else none
  | .slash => if ty.isNumeric then some (.division, ty) else none
  | .greater => if ty.isNumeric then some (.greaterThan, .boolean) else none
  | .greaterEqual => if ty.isNumeric then some (.greaterThanEqual, .boolean) else none
  | .less => if ty.isNumeric then some (.lessThan, .boolean) else none
  | .lessEqual => if ty.isNumeric then some (.lessThanEqual, .boolean) else none
  | .equalEqual => if ty.isEquatable then some (.equals, .boolean) else none
  | .notEqual => if ty.isEquatable then some (.notEquals, .boolean) else none
  | .andAnd => if ty = .boolean then some (.logicalAnd, .boolean) else none
  | .orOr => if ty = .boolean then some (.logicalOr, .boolean) else none

/-- The operation `left operator right`: both operands must have the same type. -/
def resolve? (left : Ty) (operator : BinaryOperator) (right : Ty) :
    Option (BinaryOperation × Ty) :=
  if left = right then on operator left else none

end BinaryOperation

inductive UnaryOperation where
  | identity | negation | logicalNegation
deriving DecidableEq, Repr, Inhabited

/-- The operation `operator operand`, with its result type. -/
def UnaryOperation.resolve? (operator : UnaryOperator) (operand : Ty) :
    Option (UnaryOperation × Ty) :=
  match operator with
  | .plus => if operand.isNumeric then some (.identity, operand) else none
  | .minus => if operand.isNumeric then some (.negation, operand) else none
  | .exclamation => if operand = .boolean then some (.logicalNegation, .boolean) else none

def Literal.ty : Literal → Ty
  | .boolean _ => .boolean
  | .int _ => .int
  | .long _ => .long
  | .float _ => .float
  | .double _ => .double
  | .string _ => .string
  | .char _ => .char

end Bindery
