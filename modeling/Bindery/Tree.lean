import Bindery.Span

/-!
Syntax trees.

Statements and expressions are closed sets of kinds, each node with the span of
the source text it came from. An identifier whose name is empty stands where the
source had none; it declares nothing and resolves to nothing.
-/

namespace Bindery

/-- A literal value. The two floating kinds are held as their bit patterns, so
that signed zeros and not-a-number payloads are kept apart. -/
inductive Literal where
  | boolean (value : Bool)
  | int (value : Int32)
  | long (value : Int64)
  | float (bits : UInt32)
  | double (bits : UInt64)
  | string (value : String)
  | char (value : Char)
deriving DecidableEq, Repr, Inhabited

/-- A binary operator as written. -/
inductive BinaryOperator where
  | plus | minus | star | slash
  | andAnd | orOr
  | equalEqual | notEqual
  | greater | greaterEqual | less | lessEqual
deriving DecidableEq, Repr, Inhabited

namespace BinaryOperator

def token : BinaryOperator → String
  | .plus => "+"
  | .minus => "-"
  | .star => "*"
  | .slash => "/"
  | .andAnd => "&&"
  | .orOr => "||"
  | .equalEqual => "=="
  | .notEqual => "!="
  | .greater => ">"
  | .greaterEqual => ">="
  | .less => "<"
  | .lessEqual => "<="

def all : List BinaryOperator :=
  [.plus, .minus, .star, .slash, .andAnd, .orOr, .equalEqual, .notEqual,
    .greater, .greaterEqual, .less, .lessEqual]

def ofToken? (token : String) : Option BinaryOperator :=
  all.find? (·.token == token)

end BinaryOperator

/-- A unary operator as written, before its operand. -/
inductive UnaryOperator where
  | plus | minus | exclamation
deriving DecidableEq, Repr, Inhabited

namespace UnaryOperator

def token : UnaryOperator → String
  | .plus => "+"
  | .minus => "-"
  | .exclamation => "!"

def all : List UnaryOperator :=
  [.plus, .minus, .exclamation]

def ofToken? (token : String) : Option UnaryOperator :=
  all.find? (·.token == token)

end UnaryOperator

/-- A name in the source. -/
structure Identifier where
  name : String
  span : Span
deriving DecidableEq, Repr, Inhabited

/-- Whether the source had no name here. -/
def Identifier.isMissing (i : Identifier) : Bool :=
  i.name.isEmpty

inductive Expression where
  | literal (value : Literal) (span : Span)
  | reference (name : Identifier)
  /-- The target is any expression; binding decides whether it can be assigned to. -/
  | assignment (target value : Expression) (span : Span)
  | binary (left : Expression) (operator : BinaryOperator) (operatorSpan : Span)
      (right : Expression) (span : Span)
  | unary (operator : UnaryOperator) (operatorSpan : Span) (operand : Expression) (span : Span)
  | parenthesized (inner : Expression) (span : Span)
  /-- `argumentsSpan` runs from the opening to the closing parenthesis. -/
  | call (target : Expression) (arguments : List Expression) (argumentsSpan span : Span)
  | ternary (condition yes no : Expression) (span : Span)
deriving Repr, Inhabited

def Expression.span : Expression → Span
  | .literal _ span => span
  | .reference name => name.span
  | .assignment _ _ span => span
  | .binary _ _ _ _ span => span
  | .unary _ _ _ span => span
  | .parenthesized _ span => span
  | .call _ _ _ span => span
  | .ternary _ _ _ span => span

/-- A parameter of a function, with the name of its type. -/
structure Parameter where
  name : Identifier
  typeName : Identifier
  span : Span
deriving DecidableEq, Repr, Inhabited

inductive Statement where
  /-- `bodySpan` ends at the closing brace of the body. -/
  | function (name : Identifier) (parameters : List Parameter) (result : Option Identifier)
      (body : List Statement) (bodySpan span : Span)
  | declare (name : Identifier) (typeName : Option Identifier) (readOnly : Bool)
      (value : Expression) (span : Span)
  | ifThen (condition : Expression) (yes : Statement) (span : Span)
  | ifElse (condition : Expression) (yes no : Statement) (span : Span)
  | whileLoop (condition : Expression) (body : Statement) (span : Span)
  | doWhile (body : Statement) (condition : Expression) (span : Span)
  | block (statements : List Statement) (span : Span)
  | returns (value : Option Expression) (span : Span)
  | breakLoop (span : Span)
  | continueLoop (span : Span)
  | print (value : Expression) (span : Span)
  | expression (value : Expression) (span : Span)
deriving Repr, Inhabited

def Statement.span : Statement → Span
  | .function _ _ _ _ _ span => span
  | .declare _ _ _ _ span => span
  | .ifThen _ _ span => span
  | .ifElse _ _ _ span => span
  | .whileLoop _ _ span => span
  | .doWhile _ _ span => span
  | .block _ span => span
  | .returns _ span => span
  | .breakLoop span => span
  | .continueLoop span => span
  | .print _ span => span
  | .expression _ span => span

/-- A whole source file. `text` is the source itself, when it was carried along;
it only decides how diagnostics are shown. -/
structure SourceFile where
  fileName : String
  text : Option String
  statements : List Statement
  span : Span
deriving Repr, Inhabited

end Bindery
