import Bindery.Operation
import Bindery.Symbol

/-!
Bound trees: syntax trees after names are resolved and expressions typed.

Names have become symbol ids into the program's table and operators have become
operations. `Bound.Expression.error` stands for an expression that has no
meaning; where a problem caused it, the problem has been reported.
-/

namespace Bindery.Bound

inductive Expression where
  | literal (value : Literal) (span : Span)
  | reference (symbol : SymbolId) (ty : Ty) (span : Span)
  /-- Stores the value and has it as its own. -/
  | assignment (symbol : SymbolId) (value : Expression) (ty : Ty) (span : Span)
  | binary (operation : BinaryOperation) (left right : Expression) (ty : Ty) (span : Span)
  | unary (operation : UnaryOperation) (operand : Expression) (ty : Ty) (span : Span)
  | parenthesized (inner : Expression) (span : Span)
  | call (target : Expression) (arguments : List Expression) (ty : Ty) (span : Span)
  | ternary (condition yes no : Expression) (ty : Ty) (span : Span)
  | error (span : Span)
deriving Repr, Inhabited

namespace Expression

def ty : Expression → Ty
  | .literal value _ => value.ty
  | .reference _ ty _ => ty
  | .assignment _ _ ty _ => ty
  | .binary _ _ _ ty _ => ty
  | .unary _ _ ty _ => ty
  | .parenthesized inner _ => inner.ty
  | .call _ _ ty _ => ty
  | .ternary _ _ _ ty _ => ty
  | .error _ => .error

def span : Expression → Span
  | .literal _ span => span
  | .reference _ _ span => span
  | .assignment _ _ _ span => span
  | .binary _ _ _ _ span => span
  | .unary _ _ _ span => span
  | .parenthesized _ span => span
  | .call _ _ _ span => span
  | .ternary _ _ _ _ span => span
  | .error span => span

def isError (e : Expression) : Bool :=
  e.ty.isError

end Expression

inductive Statement where
  /-- `insertReturn`: the body can be left at its end, where a return is added. -/
  | function (symbol : SymbolId) (parameters : List SymbolId) (body : List Statement)
      (insertReturn : Bool) (bodySpan span : Span)
  | declare (symbol : SymbolId) (value : Expression) (span : Span)
  | ifThen (condition : Expression) (yes : Statement) (span : Span)
  | ifElse (condition : Expression) (yes no : Statement) (span : Span)
  | whileLoop (condition : Expression) (body : Statement) (span : Span)
  | doWhile (body : Statement) (condition : Expression) (span : Span)
  | block (statements : List Statement) (span : Span)
  | returns (value : Option Expression) (span : Span)
  | breakLoop (span : Span)
  | continueLoop (span : Span)
  | print (value : Expression) (span : Span)
  | expression (value : Expression) (span : Span)
deriving Repr, Inhabited

def Statement.span : Statement → Span
  | .function _ _ _ _ _ span => span
  | .declare _ _ span => span
  | .ifThen _ _ span => span
  | .ifElse _ _ _ span => span
  | .whileLoop _ _ span => span
  | .doWhile _ _ span => span
  | .block _ span => span
  | .returns _ span => span
  | .breakLoop span => span
  | .continueLoop span => span
  | .print _ span => span
  | .expression _ span => span

/-- A bound program with the symbols its nodes refer to. -/
structure Program where
  statements : List Statement
  symbols : SymbolTable
deriving Repr, Inhabited

end Bindery.Bound
